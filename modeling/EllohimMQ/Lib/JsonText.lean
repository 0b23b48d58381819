import Mathlib.Data.List.Basic
import Mathlib.Data.Nat.Notation

/-!
# JSON texts as byte strings

The grammar of RFC 8259 over bytes, and what it says about texts that follow each other in a stream
without a separator.  A scanner that only counts brackets, and knows when it is inside a string,
stands at depth zero at the end of an object and nowhere before it (`scan_of_proper_prefix`); so no
object is a proper prefix of another (`Object.eq_of_append_eq`), and the objects of a stream can be
told apart whatever blanks stand between them (`framed_of_flatten_eq`).
-/

namespace JsonText

/-- Texts are sequences of bytes. -/
abbrev Bytes := List UInt8

/-- `"` -/
def quote : UInt8 := 0x22

/-- `\` -/
def backslash : UInt8 := 0x5c

/-- `,` -/
def comma : UInt8 := 0x2c

/-- `:` -/
def colon : UInt8 := 0x3a

/-- `[` -/
def lbracket : UInt8 := 0x5b

/-- `]` -/
def rbracket : UInt8 := 0x5d

/-- `{` -/
def lbrace : UInt8 := 0x7b

/-- `}` -/
def rbrace : UInt8 := 0x7d

/-- The bytes of a string of ASCII characters. -/
def ascii (s : String) : Bytes := s.toList.map Char.toUInt8

/-! ## The grammar -/

/-- Space, tab, line feed and carriage return. -/
def isBlank (b : UInt8) : Bool := b = 0x20 || b = 0x09 || b = 0x0a || b = 0x0d

/-- A sequence of blanks, or nothing. -/
def Blank (w : Bytes) : Prop := ∀ b ∈ w, isBlank b = true

/-- The decimal digits. -/
def isDigit (b : UInt8) : Bool := 0x30 ≤ b && b ≤ 0x39

/-- One digit or more. -/
def Digits (ds : Bytes) : Prop := ds ≠ [] ∧ ∀ b ∈ ds, isDigit b = true

/-- `[ minus ] int [ frac ] [ exp ]` -/
inductive Number : Bytes → Prop
  | mk {sign int frac exp : Bytes} (hsign : sign = [] ∨ sign = [0x2d])
    (hint : int = [0x30] ∨ Digits int ∧ int.head? ≠ some 0x30)
    (hfrac : frac = [] ∨ ∃ ds, Digits ds ∧ frac = 0x2e :: ds)
    (hexp : exp = [] ∨ ∃ e s ds, (e = 0x65 ∨ e = 0x45) ∧ (s = [] ∨ s = [0x2b] ∨ s = [0x2d]) ∧
      Digits ds ∧ exp = e :: (s ++ ds)) :
    Number (sign ++ int ++ frac ++ exp)

/-- The value of a hexadecimal digit, in either case. -/
def hexDigit (b : UInt8) : Option ℕ :=
  if 0x30 ≤ b ∧ b ≤ 0x39 then some (b.toNat - 0x30)
  else if 0x41 ≤ b ∧ b ≤ 0x46 then some (b.toNat - 0x37)
  else if 0x61 ≤ b ∧ b ≤ 0x66 then some (b.toNat - 0x57)
  else none

/-- The value of four hexadecimal digits. -/
def hex4 : Bytes → Option ℕ
  | [a, b, c, d] => do
    return (((← hexDigit a) * 16 + (← hexDigit b)) * 16 + (← hexDigit c)) * 16 + (← hexDigit d)
  | _ => none

/-- What stands for one character of a string.  Surrogates come in pairs. -/
inductive StringUnit : Bytes → Prop
  | char (c : Char) (hc : 0x20 ≤ c.toNat) (hquote : c ≠ '"') (hbackslash : c ≠ '\\') :
    StringUnit (String.utf8EncodeChar c)
  | escape {b : UInt8} (hb : b ∈ ascii "\"\\/bfnrt") : StringUnit [backslash, b]
  | unicode {ds : Bytes} {v : ℕ} (hds : hex4 ds = some v) (hv : v < 0xd800 ∨ 0xdfff < v) :
    StringUnit (backslash :: 0x75 :: ds)
  | surrogates {ds ds' : Bytes} {v v' : ℕ} (hds : hex4 ds = some v) (hds' : hex4 ds' = some v')
    (hv : 0xd800 ≤ v ∧ v ≤ 0xdbff) (hv' : 0xdc00 ≤ v' ∧ v' ≤ 0xdfff) :
    StringUnit (backslash :: 0x75 :: (ds ++ backslash :: 0x75 :: ds'))

/-- A string with its quotation marks. -/
inductive StringText : Bytes → Prop
  | mk {units : List Bytes} (h : ∀ u ∈ units, StringUnit u) :
    StringText (quote :: (units.flatten ++ [quote]))

/-- `x` is `t` with blanks around it. -/
def Framed (t x : Bytes) : Prop := ∃ w w', Blank w ∧ Blank w' ∧ x = w ++ t ++ w'

/-- The symbols of the grammar that are derived by recursion. -/
inductive Symbol where
  | value
  | object
  | elements
  | members

/-- The rules of the grammar. -/
inductive Derives : Symbol → Bytes → Prop
  | null : Derives .value (ascii "null")
  | true : Derives .value (ascii "true")
  | false : Derives .value (ascii "false")
  | number {t : Bytes} (h : Number t) : Derives .value t
  | string {t : Bytes} (h : StringText t) : Derives .value t
  | emptyArray {w : Bytes} (hw : Blank w) : Derives .value (lbracket :: (w ++ [rbracket]))
  | array {es : Bytes} (h : Derives .elements es) : Derives .value (lbracket :: (es ++ [rbracket]))
  | ofObject {t : Bytes} (h : Derives .object t) : Derives .value t
  | emptyObject {w : Bytes} (hw : Blank w) : Derives .object (lbrace :: (w ++ [rbrace]))
  | object {ms : Bytes} (h : Derives .members ms) : Derives .object (lbrace :: (ms ++ [rbrace]))
  | element {t x : Bytes} (h : Derives .value t) (hx : Framed t x) : Derives .elements x
  | elements {t x es : Bytes} (h : Derives .value t) (hx : Framed t x) (hes : Derives .elements es) :
    Derives .elements (x ++ comma :: es)
  | member {k t y x : Bytes} (hk : StringText k) (hy : Framed k y) (h : Derives .value t)
    (hx : Framed t x) : Derives .members (y ++ colon :: x)
  | members {k t y x ms : Bytes} (hk : StringText k) (hy : Framed k y) (h : Derives .value t)
    (hx : Framed t x) (hms : Derives .members ms) :
    Derives .members (y ++ colon :: (x ++ comma :: ms))

/-- A JSON value with no blanks around it. -/
abbrev Value (t : Bytes) : Prop := Derives .value t

/-- A JSON object with no blanks around it. -/
abbrev Object (t : Bytes) : Prop := Derives .object t

/-- One JSON text with blanks around it. -/
def Accepts (data : Bytes) : Prop := ∃ t, Value t ∧ Framed t data

/-! ## The scanner -/

/-- Outside strings, inside a string, behind a backslash in a string. -/
inductive Mode where
  | out
  | inString
  | escaped
  deriving DecidableEq

/-- The depth of brackets and the mode after one more byte; `none` below depth zero. -/
def scanByte : ℕ × Mode → UInt8 → Option (ℕ × Mode)
  | (d, .out), b =>
    if b = quote then some (d, .inString)
    else if b = lbracket ∨ b = lbrace then some (d + 1, .out)
    else if b = rbracket ∨ b = rbrace then
      match d with
      | 0 => none
      | d + 1 => some (d, .out)
    else some (d, .out)
  | (d, .inString), b =>
    if b = quote then some (d, .out)
    else if b = backslash then some (d, .escaped)
    else some (d, .inString)
  | (d, .escaped), _ => some (d, .inString)

/-- `scanByte`, from the first byte to the last. -/
def scan : ℕ × Mode → Bytes → Option (ℕ × Mode)
  | s, [] => some s
  | s, b :: bs => (scanByte s b).bind fun s' => scan s' bs

@[simp] theorem scan_cons (s : ℕ × Mode) (b : UInt8) (bs : Bytes) :
    scan s (b :: bs) = (scanByte s b).bind fun s' => scan s' bs := rfl

theorem scan_append (s : ℕ × Mode) (bs bs' : Bytes) :
    scan s (bs ++ bs') = (scan s bs).bind fun s' => scan s' bs' := by
  induction bs generalizing s with
  | nil => rfl
  | cons b bs ih =>
    rw [List.cons_append, scan_cons, scan_cons, Option.bind_assoc]
    exact congrArg _ (funext fun s' => ih s')

theorem scanByte_succ {d e : ℕ} {m m' : Mode} {b : UInt8} (h : scanByte (d, m) b = some (e, m')) :
    scanByte (d + 1, m) b = some (e + 1, m') := by
  cases m with
  | out =>
    unfold scanByte at h ⊢
    dsimp only at h ⊢
    split_ifs at h ⊢
    · simp_all
    · simp_all
    · cases d with
      | zero => cases h
      | succ d => simp_all
    · simp_all
  | inString =>
    unfold scanByte at h ⊢
    dsimp only at h ⊢
    split_ifs at h ⊢ <;> simp_all
  | escaped =>
    simp only [scanByte, Option.some.injEq, Prod.mk.injEq] at h ⊢
    exact ⟨by rw [h.1], h.2⟩

/-- What can be scanned from some depth can be scanned from a greater one. -/
theorem scan_succ {d e : ℕ} {m m' : Mode} {bs : Bytes} (h : scan (d, m) bs = some (e, m')) :
    scan (d + 1, m) bs = some (e + 1, m') := by
  induction bs generalizing d m with
  | nil =>
    obtain ⟨rfl, rfl⟩ := Prod.mk.inj (Option.some.inj h)
    rfl
  | cons b bs ih =>
    obtain ⟨⟨d', m''⟩, hb, hbs⟩ := Option.bind_eq_some_iff.1 h
    rw [scan_cons, scanByte_succ hb]
    exact ih hbs

theorem scan_prefix {s s' : ℕ × Mode} {bs p : Bytes} (h : scan s bs = some s') (hp : p <+: bs) :
    ∃ s'', scan s p = some s'' := by
  obtain ⟨q, rfl⟩ := hp
  rw [scan_append] at h
  obtain ⟨s'', hs'', -⟩ := Option.bind_eq_some_iff.1 h
  exact ⟨s'', hs''⟩

/-! ## What the scanner makes of a text -/

/-- The scanner comes back to where it started and never goes below. -/
def Keeps (bs : Bytes) : Prop := scan (0, .out) bs = some (0, .out)

theorem Keeps.append {bs bs' : Bytes} (h : Keeps bs) (h' : Keeps bs') : Keeps (bs ++ bs') := by
  rw [Keeps, scan_append, h]
  exact h'

/-- Bytes that mean nothing to the scanner outside strings. -/
def isPlain (b : UInt8) : Bool :=
  b ≠ quote && b ≠ lbracket && b ≠ lbrace && b ≠ rbracket && b ≠ rbrace

theorem keeps_of_plain {bs : Bytes} (h : ∀ b ∈ bs, isPlain b = true) : Keeps bs := by
  induction bs with
  | nil => rfl
  | cons b bs ih =>
    have hb := h b (by simp)
    simp only [isPlain, Bool.and_eq_true, ne_eq, decide_eq_true_eq] at hb
    obtain ⟨⟨⟨⟨h₁, h₂⟩, h₃⟩, h₄⟩, h₅⟩ := hb
    have hscan : scanByte (0, .out) b = some (0, .out) := by simp [scanByte, h₁, h₂, h₃, h₄, h₅]
    rw [Keeps, scan_cons, hscan]
    exact ih fun b' hb' => h b' (by simp [hb'])

theorem Keeps.cons_plain {b : UInt8} {bs : Bytes} (hb : isPlain b = true) (h : Keeps bs) :
    Keeps (b :: bs) := by
  have hone : Keeps [b] := keeps_of_plain (by simpa using hb)
  exact hone.append h

theorem isPlain_of_isBlank {b : UInt8} (h : isBlank b = true) : isPlain b = true := by
  simp only [isBlank, Bool.or_eq_true, decide_eq_true_eq] at h
  rcases h with ((rfl | rfl) | rfl) | rfl <;> decide

theorem keeps_blank {w : Bytes} (hw : Blank w) : Keeps w :=
  keeps_of_plain fun b hb => isPlain_of_isBlank (hw b hb)

theorem Framed.keeps {t x : Bytes} (hx : Framed t x) (ht : Keeps t) : Keeps x := by
  obtain ⟨w, w', hw, hw', rfl⟩ := hx
  exact ((keeps_blank hw).append ht).append (keeps_blank hw')

/-- Brackets around a text. -/
theorem Keeps.bracket {o c : UInt8} (ho : o = lbracket ∨ o = lbrace) (hc : c = rbracket ∨ c = rbrace)
    {bs : Bytes} (h : Keeps bs) : Keeps (o :: (bs ++ [c])) := by
  have hopen : scanByte (0, .out) o = some (1, .out) := by rcases ho with rfl | rfl <;> decide
  have hclose : scanByte (1, .out) c = some (0, .out) := by rcases hc with rfl | rfl <;> decide
  rw [Keeps, scan_cons, hopen, Option.bind_some, scan_append, scan_succ h, Option.bind_some,
    scan_cons, hclose]
  rfl

/-! ### Strings and numbers -/

/-- A byte of a character's encoding below 128 is the character itself. -/
theorem toNat_of_mem_utf8EncodeChar {c : Char} {b : UInt8} (hb : b ∈ String.utf8EncodeChar c)
    (hlt : b.toNat < 0x80) : c.toNat = b.toNat := by
  have hc : c.toNat = c.val.toNat := rfl
  unfold String.utf8EncodeChar at hb
  simp only at hb
  split at hb
  · obtain rfl := List.mem_singleton.1 hb
    simp only [UInt8.toNat_ofNat', hc]
    omega
  all_goals
    exfalso
    split_ifs at hb
    all_goals
      simp only [List.mem_cons, List.not_mem_nil, or_false] at hb
      rcases hb with rfl | rfl | rfl | rfl <;> simp only [UInt8.toNat_ofNat'] at hlt <;> omega

/-- Inside a string only the quote and the backslash mean something. -/
theorem scan_inString {bs : Bytes} (h : ∀ b ∈ bs, b ≠ quote ∧ b ≠ backslash) :
    scan (0, .inString) bs = some (0, .inString) := by
  induction bs with
  | nil => rfl
  | cons b bs ih =>
    obtain ⟨hq, hb⟩ := h b (by simp)
    have hscan : scanByte (0, .inString) b = some (0, .inString) := by simp [scanByte, hq, hb]
    rw [scan_cons, hscan]
    exact ih fun b' hb' => h b' (by simp [hb'])

theorem hexDigit_ne {b : UInt8} (h : (hexDigit b).isSome) : b ≠ quote ∧ b ≠ backslash := by
  constructor <;> rintro rfl <;> revert h <;> decide

theorem hex4_ne {ds : Bytes} {v : ℕ} (h : hex4 ds = some v) :
    ∀ b ∈ ds, b ≠ quote ∧ b ≠ backslash := by
  unfold hex4 at h
  split at h
  · next a b c d =>
    simp only [Option.bind_eq_bind, Option.bind_eq_some_iff, Option.pure_def] at h
    obtain ⟨_, ha, _, hb, _, hc, _, hd, -⟩ := h
    simp only [List.mem_cons, List.not_mem_nil, or_false]
    rintro x (rfl | rfl | rfl | rfl)
    · exact hexDigit_ne (by simp [ha])
    · exact hexDigit_ne (by simp [hb])
    · exact hexDigit_ne (by simp [hc])
    · exact hexDigit_ne (by simp [hd])
  · cases h

theorem scan_escape {bs : Bytes} (b : UInt8)
    (h : scan (0, .inString) bs = some (0, .inString)) :
    scan (0, .inString) (backslash :: b :: bs) = some (0, .inString) := h

theorem StringUnit.scan {u : Bytes} (h : StringUnit u) :
    scan (0, .inString) u = some (0, .inString) := by
  cases h with
  | char c hc hquote hbackslash =>
    refine scan_inString fun b hb => ⟨?_, ?_⟩
    · rintro rfl
      exact hquote (Char.toNat_inj.1 (toNat_of_mem_utf8EncodeChar hb (by decide)))
    · rintro rfl
      exact hbackslash (Char.toNat_inj.1 (toNat_of_mem_utf8EncodeChar hb (by decide)))
  | escape hb => exact scan_escape _ rfl
  | unicode hds hv => exact scan_escape _ (scan_inString (hex4_ne hds))
  | surrogates hds hds' hv hv' =>
    refine scan_escape 0x75 ?_
    rw [scan_append, scan_inString (hex4_ne hds)]
    exact scan_escape 0x75 (scan_inString (hex4_ne hds'))

theorem StringText.keeps {t : Bytes} (h : StringText t) : Keeps t := by
  obtain ⟨hunits⟩ := h
  rename_i units
  have hbody : JsonText.scan (0, .inString) units.flatten = some (0, .inString) := by
    induction units with
    | nil => rfl
    | cons u units ih =>
      rw [List.flatten_cons, scan_append, (hunits u (by simp)).scan]
      exact ih fun u' hu' => hunits u' (by simp [hu'])
  have hopen : scanByte (0, .out) quote = some (0, .inString) := rfl
  rw [Keeps, scan_cons, hopen, Option.bind_some, scan_append, hbody]
  rfl

theorem isPlain_of_isDigit {b : UInt8} (h : isDigit b = true) : isPlain b = true := by
  simp only [isPlain, Bool.and_eq_true, decide_eq_true_eq]
  refine ⟨⟨⟨⟨?_, ?_⟩, ?_⟩, ?_⟩, ?_⟩ <;> rintro rfl <;> revert h <;> decide

theorem Number.keeps {t : Bytes} (h : Number t) : Keeps t := by
  obtain ⟨hsign, hint, hfrac, hexp⟩ := h
  have hdigits : ∀ ds, Digits ds → Keeps ds := fun ds hds =>
    keeps_of_plain fun b hb => isPlain_of_isDigit (hds.2 b hb)
  refine ((Keeps.append ?_ ?_).append ?_).append ?_
  · rcases hsign with rfl | rfl <;> rfl
  · rcases hint with rfl | ⟨hds, -⟩
    · rfl
    · exact hdigits _ hds
  · rcases hfrac with rfl | ⟨ds, hds, rfl⟩
    · rfl
    · exact (hdigits ds hds).cons_plain (by decide)
  · rcases hexp with rfl | ⟨e, s, ds, he, hs, hds, rfl⟩
    · rfl
    · refine Keeps.cons_plain ?_ (Keeps.append ?_ (hdigits ds hds))
      · rcases he with rfl | rfl <;> decide
      · rcases hs with rfl | rfl | rfl <;> rfl

/-! ### Values -/

theorem Derives.keeps {x : Symbol} {t : Bytes} (h : Derives x t) : Keeps t := by
  induction h with
  | null => rfl
  | true => rfl
  | false => rfl
  | number h => exact h.keeps
  | string h => exact h.keeps
  | emptyArray hw => exact (keeps_blank hw).bracket (.inl rfl) (.inl rfl)
  | array _ ih => exact ih.bracket (.inl rfl) (.inl rfl)
  | ofObject _ ih => exact ih
  | emptyObject hw => exact (keeps_blank hw).bracket (.inr rfl) (.inr rfl)
  | object _ ih => exact ih.bracket (.inr rfl) (.inr rfl)
  | element _ hx ih => exact hx.keeps ih
  | elements _ hx _ ih ih' => exact (hx.keeps ih).append (ih'.cons_plain (by decide))
  | member hk hy _ hx ih =>
    exact (hy.keeps hk.keeps).append ((hx.keeps ih).cons_plain (by decide))
  | members hk hy _ hx _ ih ih' =>
    refine (hy.keeps hk.keeps).append (Keeps.cons_plain (by decide) ?_)
    exact (hx.keeps ih).append (ih'.cons_plain (by decide))

/-- An object is a pair of braces around something that the scanner goes through. -/
theorem Object.braces {t : Bytes} (h : Object t) : ∃ ms, Keeps ms ∧ t = lbrace :: (ms ++ [rbrace]) := by
  cases h with
  | emptyObject hw => exact ⟨_, keeps_blank hw, rfl⟩
  | object hms => exact ⟨_, hms.keeps, rfl⟩

/-- Before the end of an object the scanner is not back at depth zero. -/
theorem scan_of_proper_prefix {t p : Bytes} (ht : Object t) (hp : p <+: t) (hne : p ≠ t)
    (hnil : p ≠ []) : ¬ Keeps p := by
  obtain ⟨ms, hms, rfl⟩ := ht.braces
  rcases p with _ | ⟨b, q⟩
  · exact absurd rfl hnil
  obtain ⟨r, htext⟩ := hp
  obtain ⟨rfl, hr⟩ := List.cons.inj (show b :: (q ++ r) = lbrace :: (ms ++ [rbrace]) from htext)
  -- the rest of the prefix ends before the closing brace
  have hq : q <+: ms := by
    rcases List.eq_nil_or_concat r with rfl | ⟨r, c, rfl⟩
    · rw [List.append_nil] at hr
      exact absurd (congrArg (lbrace :: ·) hr) hne
    · rw [List.concat_eq_append, ← List.append_assoc] at hr
      exact ⟨r, (List.append_inj' hr rfl).1⟩
  obtain ⟨⟨e, m⟩, hscan⟩ := scan_prefix hms hq
  have hopen : scanByte (0, .out) lbrace = some (1, .out) := rfl
  rw [Keeps, scan_cons, hopen, Option.bind_some, scan_succ hscan]
  simp

/-- No object is a proper prefix of another. -/
theorem Object.eq_of_append_eq {t t' r r' : Bytes} (h : Object t) (h' : Object t')
    (e : t ++ r = t' ++ r') : t = t' := by
  have key : ∀ {t t' : Bytes}, Object t → Object t' → t <+: t' → t = t' := by
    intro t t' h h' hp
    by_contra hne
    obtain ⟨ms, -, rfl⟩ := h.braces
    exact scan_of_proper_prefix h' hp hne (by simp) h.keeps
  rcases Nat.le_total t.length t'.length with hle | hle
  · exact key h h' (List.prefix_of_prefix_length_le ⟨r, e⟩ ⟨r', rfl⟩ hle)
  · exact (key h' h (List.prefix_of_prefix_length_le ⟨r', e.symm⟩ ⟨r, rfl⟩ hle)).symm

/-! ## Texts in a stream -/

theorem Number.head {t : Bytes} (h : Number t) :
    ∃ b bs, t = b :: bs ∧ (b = 0x2d ∨ isDigit b = true) := by
  obtain ⟨hsign, hint, -, -⟩ := h
  rename_i sign int frac exp
  rcases hsign with rfl | rfl
  · rcases hint with rfl | ⟨⟨hne, hds⟩, -⟩
    · exact ⟨0x30, _, rfl, .inr (by decide)⟩
    · obtain ⟨b, bs, rfl⟩ := List.exists_cons_of_ne_nil hne
      exact ⟨b, _, rfl, .inr (hds b (by simp))⟩
  · exact ⟨0x2d, _, rfl, .inl rfl⟩

theorem Object.head {t : Bytes} (h : Object t) : ∃ bs, t = lbrace :: bs := by
  obtain ⟨ms, -, rfl⟩ := h.braces
  exact ⟨_, rfl⟩

/-- A value does not begin with a blank, and it is an object if it begins with a brace. -/
theorem Value.head {t : Bytes} (h : Value t) :
    ∃ b bs, t = b :: bs ∧ isBlank b = false ∧ (b = lbrace → Object t) := by
  cases h with
  | null => exact ⟨_, _, rfl, by decide, fun e => absurd e (by decide)⟩
  | true => exact ⟨_, _, rfl, by decide, fun e => absurd e (by decide)⟩
  | false => exact ⟨_, _, rfl, by decide, fun e => absurd e (by decide)⟩
  | number h =>
    obtain ⟨b, bs, rfl, hb⟩ := h.head
    refine ⟨b, bs, rfl, ?_, ?_⟩
    · rcases hb with rfl | hb
      · decide
      · by_contra hblank
        simp only [Bool.not_eq_false, isBlank, Bool.or_eq_true, decide_eq_true_eq] at hblank
        rcases hblank with ((rfl | rfl) | rfl) | rfl <;> revert hb <;> decide
    · rintro rfl
      exact absurd hb (by decide)
  | string h =>
    obtain ⟨-⟩ := h
    exact ⟨quote, _, rfl, by decide, fun e => absurd e (by decide)⟩
  | emptyArray hw => exact ⟨lbracket, _, rfl, by decide, fun e => absurd e (by decide)⟩
  | array h => exact ⟨lbracket, _, rfl, by decide, fun e => absurd e (by decide)⟩
  | ofObject h =>
    obtain ⟨bs, rfl⟩ := Object.head h
    exact ⟨lbrace, bs, rfl, by decide, fun _ => h⟩

theorem Blank.append {w w' : Bytes} (hw : Blank w) (hw' : Blank w') : Blank (w ++ w') := by
  intro b hb
  exact (List.mem_append.1 hb).elim (hw b) (hw' b)

/-- The blanks in front of two texts can be cancelled. -/
theorem append_cancel_blank {w w' t t' : Bytes} {b b' : UInt8} (hw : Blank w) (hw' : Blank w')
    (hb : isBlank b = false) (hb' : isBlank b' = false) (e : w ++ b :: t = w' ++ b' :: t') :
    b :: t = b' :: t' := by
  induction w generalizing w' with
  | nil =>
    cases w' with
    | nil => exact e
    | cons c w' =>
      obtain ⟨rfl, -⟩ := List.cons.inj e
      rw [hw' b (by simp)] at hb
      cases hb
  | cons c w ih =>
    cases w' with
    | nil =>
      obtain ⟨rfl, -⟩ := List.cons.inj e
      rw [hw c (by simp)] at hb'
      cases hb'
    | cons c' w' =>
      obtain ⟨-, e⟩ := List.cons.inj e
      exact ih (fun x hx => hw x (by simp [hx])) (fun x hx => hw' x (by simp [hx])) e

/-- Where two streams are equal and one goes on with an object, a value at the same place of the
other is that object. -/
theorem Value.eq_of_append_eq {w w' t t' r r' : Bytes} (hw : Blank w) (hw' : Blank w')
    (ht : Value t) (ht' : Object t') (e : w ++ t ++ r = w' ++ t' ++ r') : t = t' ∧ r = r' := by
  obtain ⟨b, bs, rfl, hb, hobj⟩ := ht.head
  obtain ⟨bs', rfl⟩ := ht'.head
  have hcancel : b :: bs ++ r = lbrace :: bs' ++ r' := by
    simp only [List.append_assoc, List.cons_append] at e ⊢
    exact append_cancel_blank hw hw' hb (by decide) e
  obtain ⟨rfl, -⟩ := List.cons.inj (show b :: (bs ++ r) = lbrace :: (bs' ++ r') from hcancel)
  have htext := (hobj rfl).eq_of_append_eq ht' hcancel
  rw [htext] at hcancel
  exact ⟨htext, List.append_cancel_left hcancel⟩

/-- Two objects, one behind the other, are not a JSON text. -/
theorem not_accepts_append {t t' : Bytes} (h : Object t) (h' : Object t') : ¬ Accepts (t ++ t') := by
  rintro ⟨v, hv, w, w', hw, hw', e⟩
  have hnil : Blank [] := by simp [Blank]
  have hsplit : w ++ v ++ w' = [] ++ t ++ t' := by rw [List.nil_append, e]
  obtain ⟨-, e'⟩ := hv.eq_of_append_eq hw hnil h hsplit
  obtain ⟨bs, rfl⟩ := h'.head
  have := hw' lbrace (by simp [e'])
  revert this
  decide

/-- A stream of objects, cut into as many JSON texts as there are objects, is cut between them. -/
theorem framed_of_flatten_eq {chunks messages : List Bytes}
    (hlen : chunks.length = messages.length) (hc : ∀ c ∈ chunks, Accepts c)
    (hm : ∀ m ∈ messages, ∃ t, Object t ∧ Framed t m) (he : chunks.flatten = messages.flatten) :
    List.Forall₂ (fun c m => ∃ t, Object t ∧ Framed t c ∧ Framed t m) chunks messages := by
  -- the blanks behind an object may be cut off it and come in front of the next
  suffices key : ∀ w w', Blank w → Blank w' → w ++ chunks.flatten = w' ++ messages.flatten →
      List.Forall₂ (fun c m => ∃ t, Object t ∧ Framed t c ∧ Framed t m) chunks messages from
    key [] [] (by simp [Blank]) (by simp [Blank]) he
  clear he
  induction chunks generalizing messages with
  | nil =>
    obtain rfl := List.length_eq_zero_iff.1 hlen.symm
    exact fun _ _ _ _ _ => .nil
  | cons c chunks ih =>
    obtain ⟨m, messages, rfl⟩ : ∃ m ms, messages = m :: ms :=
      List.exists_cons_of_length_pos (by rw [← hlen]; simp)
    intro w w' hw hw' e
    obtain ⟨t, ht, v, v', hv, hv', rfl⟩ := hc c (by simp)
    obtain ⟨t', ht', u, u', hu, hu', rfl⟩ := hm m (by simp)
    have hsplit : (w ++ v) ++ t ++ (v' ++ chunks.flatten) =
        (w' ++ u) ++ t' ++ (u' ++ messages.flatten) := by
      simpa only [List.flatten_cons, List.append_assoc] using e
    obtain ⟨rfl, hrest⟩ := ht.eq_of_append_eq (hw.append hv) (hw'.append hu) ht' hsplit
    refine .cons ⟨t, ht', ⟨v, v', hv, hv', rfl⟩, ⟨u, u', hu, hu', rfl⟩⟩ ?_
    exact ih (by simpa using hlen) (fun x hx => hc x (by simp [hx]))
      (fun x hx => hm x (by simp [hx])) v' u' hv' hu' hrest

/-! ## Reading a stream from its front -/

/-- The stream is made of the objects, one after the other, with blanks between them or not. -/
inductive Stream : Bytes → List Bytes → Prop
  | nil {w : Bytes} (hw : Blank w) : Stream w []
  | cons {w t x : Bytes} {ts : List Bytes} (hw : Blank w) (ht : Object t) (hx : Stream x ts) :
    Stream (w ++ t ++ x) (t :: ts)

theorem Stream.keeps {x : Bytes} {ts : List Bytes} (h : Stream x ts) : Keeps x := by
  induction h with
  | nil hw => exact keeps_blank hw
  | cons hw ht _ ih => exact ((keeps_blank hw).append ht.keeps).append ih

/-- Blanks in front of a stream belong to it. -/
theorem Stream.blank_append {x : Bytes} {ts : List Bytes} (h : Stream x ts) {w : Bytes}
    (hw : Blank w) : Stream (w ++ x) ts := by
  cases h with
  | nil hw' => exact .nil (hw.append hw')
  | cons hw' ht hx =>
    rw [← List.append_assoc, ← List.append_assoc]
    exact .cons (hw.append hw') ht hx

/-- A stream is made of one sequence of objects only. -/
theorem Stream.unique {x : Bytes} {ts ts' : List Bytes} (h : Stream x ts) (h' : Stream x ts') :
    ts = ts' := by
  have hblank : ∀ {w w' t r : Bytes}, Blank w → Object t → w ≠ w' ++ t ++ r := by
    rintro w w' t r hw ht rfl
    obtain ⟨bs, rfl⟩ := Object.head ht
    have := hw lbrace (by simp)
    revert this
    decide
  induction h generalizing ts' with
  | @nil w hw =>
    generalize hy : w = y at h'
    cases h' with
    | nil => rfl
    | cons hw' ht' hx' => exact absurd hy (hblank hw ht')
  | @cons w t x ts hw ht hx ih =>
    generalize hy : w ++ t ++ x = y at h'
    cases h' with
    | nil hw' => exact absurd hy.symm (hblank hw' ht)
    | cons hw' ht' hx' =>
      obtain ⟨rfl, rfl⟩ := Value.eq_of_append_eq hw hw' (.ofObject ht) ht' hy
      rw [ih hx']

/-- Objects with blanks around them make up a stream. -/
theorem stream_flatten {ts xs : List Bytes}
    (h : List.Forall₂ (fun t x => Object t ∧ Framed t x) ts xs) : Stream xs.flatten ts := by
  induction h with
  | nil => exact .nil (by simp [Blank])
  | cons hx _ ih =>
    obtain ⟨ht, w, w', hw, hw', rfl⟩ := hx
    rw [List.flatten_cons, List.append_assoc]
    exact .cons hw ht (ih.blank_append hw')

end JsonText
