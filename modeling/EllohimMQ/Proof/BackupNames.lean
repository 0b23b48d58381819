import EllohimMQ.Model.Logger
import EllohimMQ.Model.Topics
import EllohimMQ.Proof.Inside

/-!
# The names of the backups

A backup has the name of the log behind the local time of its last write, six numbers with characters
between them that are no digits.  The numbers can be read back (`decimal_digits`), so backups of logs
that were last written at different local seconds have different names (`backupName_inj`).
-/

namespace EllohimMQ

/-! ## Digits -/

theorem toNat_toUInt8_of_isDigit {c : Char} (h : c.isDigit = true) : c.toUInt8.toNat = c.toNat := by
  have hc : c.toNat ≤ 57 := (Char.isDigit_iff_toNat.1 h).2
  rw [Char.toUInt8, UInt32.toNat_toUInt8]
  exact Nat.mod_eq_of_lt (by change c.toNat < 256; omega)

theorem isDigit_of_mem_digits {n : ℕ} {c : UInt8} (h : c ∈ digits n) : isDigit c = true := by
  obtain ⟨d, hd, rfl⟩ := List.mem_map.1 h
  have hdigit := Nat.isDigit_of_mem_toDigits (by decide) (by decide) hd
  have hrange := Char.isDigit_iff_toNat.1 hdigit
  rw [← toNat_toUInt8_of_isDigit hdigit] at hrange
  simp only [isDigit, decide_eq_true_eq, UInt8.le_iff_toNat_le]
  exact hrange

theorem decimal_digits (n : ℕ) : decimal (digits n) = n := by
  have hfold : ∀ (l : List Char) (m : ℕ), (∀ c ∈ l, c.isDigit = true) →
      (l.map Char.toUInt8).foldl (fun m c => 10 * m + (c.toNat - 48)) m =
        Nat.ofDigitChars 10 l m := fun l m hl => by
    induction l generalizing m with
    | nil => rfl
    | cons c l ih =>
      rw [List.map_cons, List.foldl_cons, Nat.ofDigitChars_cons,
        toNat_toUInt8_of_isDigit (hl c (List.mem_cons_self ..))]
      exact ih _ fun d hd => hl d (List.mem_cons_of_mem _ hd)
  rw [decimal, digits, hfold _ 0 fun c hc => Nat.isDigit_of_mem_toDigits (by decide) (by decide) hc]
  exact Nat.ofDigitChars_ten_toDigits

theorem isDigit_of_mem_formatTwo {n : ℕ} {c : UInt8} (h : c ∈ formatTwo n) : isDigit c = true := by
  rcases List.mem_append.1 h with h | h
  · rw [List.eq_of_mem_replicate h]
    decide
  · exact isDigit_of_mem_digits h

theorem decimal_formatTwo (n : ℕ) : decimal (formatTwo n) = n := by
  have hzeros : ∀ (k : ℕ), (List.replicate k (48 : UInt8)).foldl
      (fun m c => 10 * m + (c.toNat - 48)) 0 = 0 := fun k => by
    induction k with
    | zero => rfl
    | succ k ih => exact ih
  rw [decimal, formatTwo, List.foldl_append, hzeros]
  exact decimal_digits n

/-! ## Reading a name -/

variable {r r' : Str}

/-- Digits are read up to the first character that is none. -/
theorem append_inj_of_isDigit {s s' : Str} {c : UInt8} (hs : ∀ d ∈ s, isDigit d = true)
    (hs' : ∀ d ∈ s', isDigit d = true) (hc : isDigit c = false) (h : s ++ c :: r = s' ++ c :: r') :
    s = s' ∧ r = r' := by
  have htake : ∀ {t u : Str}, (∀ d ∈ t, isDigit d = true) → (t ++ c :: u).takeWhile isDigit = t :=
    fun {t u} ht => by simp [List.takeWhile_append_of_pos ht, hc]
  obtain rfl : s = s' := by
    calc
      s = (s ++ c :: r).takeWhile isDigit := (htake hs).symm
      _ = (s' ++ c :: r').takeWhile isDigit := congrArg _ h
      _ = s' := htake hs'
  exact ⟨rfl, (List.cons.inj (List.append_cancel_left h)).2⟩

theorem formatTwo_append_inj {n m : ℕ} {c : UInt8} (hc : isDigit c = false)
    (h : formatTwo n ++ c :: r = formatTwo m ++ c :: r') : n = m ∧ r = r' := by
  obtain ⟨hnum, hrest⟩ := append_inj_of_isDigit (fun _ => isDigit_of_mem_formatTwo)
    (fun _ => isDigit_of_mem_formatTwo) hc h
  refine ⟨?_, hrest⟩
  rw [← decimal_formatTwo n, hnum, decimal_formatTwo]

theorem digits_append_inj {n m : ℕ} (h : digits n ++ 45 :: r = digits m ++ 45 :: r') :
    n = m ∧ r = r' := by
  obtain ⟨hnum, hrest⟩ := append_inj_of_isDigit (fun _ => isDigit_of_mem_digits)
    (fun _ => isDigit_of_mem_digits) (by decide) h
  refine ⟨?_, hrest⟩
  rw [← decimal_digits n, hnum, decimal_digits]

/-- No digits begin with a sign. -/
theorem digits_append_ne {n : ℕ} : digits n ++ r ≠ 45 :: r' := fun h => by
  cases hdigits : digits n with
  | nil => exact Nat.toDigits_ne_nil (List.map_eq_nil_iff.1 hdigits)
  | cons c s =>
    rw [hdigits, List.cons_append, List.cons.injEq] at h
    have hc := isDigit_of_mem_digits (hdigits ▸ List.mem_cons_self : c ∈ digits n)
    rw [h.1] at hc
    cases hc

theorem formatInt_append_inj {n m : ℤ} (h : formatInt n ++ 45 :: r = formatInt m ++ 45 :: r') :
    n = m ∧ r = r' := by
  unfold formatInt at h
  split_ifs at h with hn hm hm
  · obtain ⟨habs, hrest⟩ := digits_append_inj (List.cons.inj h).2
    exact ⟨by omega, hrest⟩
  · exact absurd h.symm digits_append_ne
  · exact absurd h digits_append_ne
  · obtain ⟨habs, hrest⟩ := digits_append_inj h
    exact ⟨by omega, hrest⟩

/-- Logs of different local seconds have backups of different names. -/
theorem backupName_inj {tm tm' : Tm} {filename : Str}
    (h : backupName tm filename = backupName tm' filename) : tm = tm' := by
  obtain ⟨hmon, h⟩ := formatTwo_append_inj (by decide) h
  obtain ⟨hmday, h⟩ := formatTwo_append_inj (by decide) h
  obtain ⟨hyear, h⟩ := formatInt_append_inj h
  obtain ⟨hhour, h⟩ := formatTwo_append_inj (by decide) h
  obtain ⟨hmin, h⟩ := formatTwo_append_inj (by decide) h
  obtain ⟨hsec, -⟩ := formatTwo_append_inj (by decide) h
  have hyear' : tm.tmYear = tm'.tmYear := by omega
  cases tm with
  | mk sec min hour mday mon year =>
    cases tm' with
    | mk sec' min' hour' mday' mon' year' =>
      rw [Tm.mk.injEq]
      exact ⟨hsec, hmin, hhour, hmday, Nat.succ.inj hmon, hyear'⟩

/-! ## The path of a backup -/

theorem notMem_filename {path : Str} : 47 ∉ (FilePath.parse .posix path).filename := fun hmem => by
  rw [FilePath.filename] at hmem
  cases hlast : (FilePath.parse .posix path).names.getLast? with
  | none =>
    rw [hlast] at hmem
    cases hmem
  | some name =>
    rw [hlast] at hmem
    exact absurd ((mem_names (List.mem_of_getLast? hlast)).2 47 hmem) (by decide)

theorem notMem_backupName {tm : Tm} {filename : Str} (h : 47 ∉ filename) :
    47 ∉ backupName tm filename := by
  have htwo : ∀ n, 47 ∉ formatTwo n := fun n hmem =>
    absurd (isDigit_of_mem_formatTwo hmem) (by decide)
  have hint : ∀ n, 47 ∉ formatInt n := fun n hmem => by
    have hdigits : ∀ k, 47 ∉ digits k := fun k hmem =>
      absurd (isDigit_of_mem_digits hmem) (by decide)
    unfold formatInt at hmem
    split_ifs at hmem
    · exact hdigits _ ((List.mem_cons.1 hmem).resolve_left (by decide))
    · exact hdigits _ hmem
  simp [backupName, htwo, hint, h]

theorem mem_backupName (tm : Tm) (filename : Str) : 95 ∈ backupName tm filename := by
  simp [backupName]

/-- The path of a backup, in its parts. -/
theorem parse_backup {name : Str} (hname : 47 ∉ name) (hne : name ≠ []) :
    FilePath.parse .posix (bytes "./backup/" ++ name) =
      { rootName := [], rootDirectory := false, names := [bytes ".", bytes "backup", name] } := by
  have hsep : ∀ c ∈ name, Platform.posix.isSeparator c = false := fun c hc => by
    rw [Platform.isSeparator, decide_eq_false_iff_not]
    exact fun heq => hname (heq ▸ hc)
  have hnone : ∀ t : Str, t.any Platform.posix.isSeparator = false →
      ∀ c ∈ t, Platform.posix.isSeparator c = false := fun t ht c hc => by
    simpa using List.any_eq_false.1 ht c hc
  have hsplit : (bytes "./backup/" ++ name).splitOnP Platform.posix.isSeparator =
      [bytes ".", bytes "backup", name] := by
    rw [show bytes "./backup/" ++ name = bytes "." ++ 47 :: (bytes "backup" ++ 47 :: name) from rfl,
      List.splitOnP_append_cons_of_forall_mem (hnone _ rfl) 47 rfl,
      List.splitOnP_append_cons_of_forall_mem (hnone _ rfl) 47 rfl, List.splitOnP_eq_singleton hsep]
  have hlast : (bytes "./backup/" ++ name).getLast?.any Platform.posix.isSeparator = false := by
    rw [List.getLast?_append_of_ne_nil _ hne]
    cases hlast : name.getLast? with
    | none => rfl
    | some c => exact hsep c (List.mem_of_getLast? hlast)
  have hnames : Platform.posix.splitNames (bytes "./backup/" ++ name) =
      [bytes ".", bytes "backup", name] := by
    rw [Platform.splitNames, hsplit, hlast]
    simp only [ne_eq, Bool.false_eq_true, if_false]
    rw [List.filter_cons_of_pos (by decide), List.filter_cons_of_pos (by decide),
      List.filter_cons_of_pos (by simpa using hne), List.filter_nil]
  rw [← hnames]
  rfl

end EllohimMQ
