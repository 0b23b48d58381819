import Mathlib.Data.List.TakeWhile
import EllohimMQ.Model.Topics

/-!
# What `math.add` adds

`Math::on_call` cuts the payload at its first comma and gives both parts to `std::stoi`.  On a part
that is a decimal integer in the range of `int`, `std::stoi` yields that integer (`stoi_of_intText`);
on other parts it throws or, when such an integer is followed by something else, yields the integer
all the same.  Neither what it throws nor the additions are checked.
-/

namespace EllohimMQ

open Calls

/-- A decimal integer with an optional sign, and its value. -/
inductive IntText : Str → ℤ → Prop
  | digits {s : Str} (hne : s ≠ []) (hs : ∀ c ∈ s, isDigit c = true) : IntText s (decimal s)
  | plus {s : Str} (hne : s ≠ []) (hs : ∀ c ∈ s, isDigit c = true) :
    IntText (43 :: s) (decimal s)
  | minus {s : Str} (hne : s ≠ []) (hs : ∀ c ∈ s, isDigit c = true) :
    IntText (45 :: s) (-(decimal s : ℤ))

theorem isSpace_eq_false_of_isDigit {c : UInt8} (h : isDigit c = true) : isSpace c = false := by
  simp only [isDigit, isSpace, decide_eq_true_eq, decide_eq_false_iff_not] at h ⊢
  rintro (rfl | hc)
  · exact absurd h.1 (by decide)
  · exact absurd (UInt8.le_trans h.1 hc.2) (by decide)

theorem splitSign_of_isDigit {s : Str} (hs : ∀ c ∈ s, isDigit c = true) :
    splitSign s = (false, s) := by
  cases s with
  | nil => rfl
  | cons c s =>
    have hc := hs c (List.mem_cons_self ..)
    have hminus : c ≠ 45 := by
      rintro rfl
      cases hc
    have hplus : c ≠ 43 := by
      rintro rfl
      cases hc
    rw [splitSign, if_neg hminus, if_neg hplus]

/-- The characters of an integer. -/
theorem IntText.of_mem {s : Str} {n : ℤ} (h : IntText s n) {c : UInt8} (hc : c ∈ s) :
    isDigit c = true ∨ c = 43 ∨ c = 45 := by
  cases h with
  | digits hne hs => exact .inl (hs c hc)
  | plus hne hs => exact (List.mem_cons.1 hc).elim (.inr ∘ .inl) fun hc => .inl (hs c hc)
  | minus hne hs => exact (List.mem_cons.1 hc).elim (.inr ∘ .inr) fun hc => .inl (hs c hc)

theorem IntText.comma_notMem {s : Str} {n : ℤ} (h : IntText s n) : 44 ∉ s :=
  fun hc => absurd (h.of_mem hc) (by decide)

theorem IntText.dropWhile_isSpace {s : Str} {n : ℤ} (h : IntText s n) : s.dropWhile isSpace = s := by
  cases h with
  | digits hne hs =>
    cases s with
    | nil => rfl
    | cons c s =>
      rw [List.dropWhile_cons, isSpace_eq_false_of_isDigit (hs c (List.mem_cons_self ..))]
      rfl
  | plus | minus => rfl

/-- `std::stoi` yields the value of an integer that is in the range of `int`. -/
theorem stoi_of_intText {s : Str} {n : ℤ} (h : IntText s n) (hn : inIntRange n = true) :
    stoi s = .ok n := by
  have htake : ∀ {s : Str}, (∀ c ∈ s, isDigit c = true) → s.takeWhile isDigit = s := fun hs =>
    List.takeWhile_eq_self_iff.2 hs
  unfold stoi
  rw [h.dropWhile_isSpace]
  cases h with
  | digits hne hs =>
    rw [splitSign_of_isDigit hs]
    simp [htake hs, hne, hn]
  | plus hne hs => simp [splitSign, htake hs, hne, hn]
  | minus hne hs => simp [splitSign, htake hs, hne, hn]

namespace Math

/-- The payload is two integers in the range of `int`, with one comma between them. -/
def Operands (payload : Str) (a b : ℤ) : Prop :=
  ∃ s t, payload = s ++ 44 :: t ∧ IntText s a ∧ IntText t b ∧
    inIntRange a = true ∧ inIntRange b = true

/-- What a topic shows. -/
abbrev TopicEvent := Calls.Event TopicEffect TopicValue StdException

/-- The number in a line that logs a result. -/
def resultOf : TopicEvent → Option ℤ
  | .effect (.log [.str s, .int n]) _ =>
    if s = bytes "[Task] math.add result: " then some n else none
  | _ => none

/-- The results that are logged. -/
def results (trace : List TopicEvent) : List ℤ := trace.filterMap resultOf

/-- `on_call` ends normally and no addition overflows; it logs the sum and nothing else when the
payload gives two operands, and no result when it does not.  The third summand is the value that was
awaited from `test()`. -/
def AddsExactly (payload : Str) : Prop :=
  ∃ n m, topicProgram.run (onCall payload) n = .done (.value .void) m ∧
    .effect .overflow .void ∉ m.trace ∧
    (∀ a b, Operands payload a b →
      ∃ t v, .awaited t (.value (.int v)) ∈ m.trace ∧ results m.trace = [a + b + v]) ∧
    ((¬ ∃ a b, Operands payload a b) → results m.trace = [])

/-! ## The runs -/

/-- What is seen up to the end of `test()`. -/
def opening (payload : Str) : List TopicEvent :=
  [.effect (.log [.str (bytes "[Task] Starting math.add with payload: "), .str payload]) .void,
    .effect (.log [.str (bytes "[Handler] About to call test()")]) .void,
    .effect (.log [.str (bytes "exec test function")]) .void,
    .effect (.log [.str (bytes "test function completed")]) .void,
    .awaited 1 (.value (.int 11))]

/-- What is seen of `add` before it looks for the comma. -/
def completed : List TopicEvent :=
  [.effect (.log [.str (bytes "[Handler] test() completed value "), .int 11]) .void]

/-- What is seen behind `add`. -/
def closing : List TopicEvent :=
  [.effect (.log [.str (bytes "[Handler] test() called, waiting for completion")]) .void]

/-- What an addition shows. -/
def overflowOf (n : ℤ) : List TopicEvent :=
  if inIntRange n then [] else [.effect .overflow .void]

/-- An addition of two `int`s, with the sum wrapped round when it overflows. -/
def wrapInt (n : ℤ) : ℤ := if inIntRange n then n else n.bmod (2 ^ 32)

/-- What is seen of a run in which `std::stoi` has yielded `a` and `b`. -/
def addition (payload : Str) (a b : ℤ) : List TopicEvent :=
  opening payload ++ completed ++ overflowOf (a + b) ++ overflowOf (wrapInt (a + b) + 11) ++
    .effect (.log [.str (bytes "[Task] math.add result: "),
      .int (wrapInt (wrapInt (a + b) + 11))]) .void :: closing

theorem call_log (n : ℕ) (m : Memory TopicBody TopicEffect TopicValue StdException)
    (items : List LogItem) (rest : TopicBody) :
    topicProgram.call (n + 1) m (log items rest) =
      topicProgram.call n (m.emit (.effect (.log items) .void)) rest := rfl

theorem run_onCall (payload : Str) : topicProgram.run (onCall payload) 13 =
    topicProgram.call 8 ⟨[.running, .dropped], opening payload⟩ (add payload 11) := by
  rw [Program.run, onCall, call_log, call_log]
  rfl

theorem run_none {payload : Str} (h : payload.idxOf? 44 = none) :
    ∃ tasks, topicProgram.run (onCall payload) 13 =
      .done (.value .void) ⟨tasks, opening payload ++ completed ++ closing⟩ := by
  have hadd : add payload 11 =
      log [.str (bytes "[Handler] test() completed value "), .int 11] last := by
    simp only [add, h]
  rw [run_onCall, hadd]
  exact ⟨_, rfl⟩

theorem run_error {payload : Str} {pos : ℕ} {e : StdException} (h : payload.idxOf? 44 = some pos)
    (hs : stoi (payload.take pos) = .error e ∨
      ∃ a, stoi (payload.take pos) = .ok a ∧ stoi (payload.drop (pos + 1)) = .error e) :
    ∃ m, topicProgram.run (onCall payload) 13 = .done (.exception e) m := by
  have hadd : add payload 11 =
      log [.str (bytes "[Handler] test() completed value "), .int 11] (.throw e) := by
    rcases hs with ha | ⟨a, ha, hb⟩
    · simp only [add, h, ha]
    · simp only [add, h, ha, hb]
  rw [run_onCall, hadd]
  exact ⟨_, rfl⟩

theorem run_ok {payload : Str} {pos : ℕ} {a b : ℤ} (h : payload.idxOf? 44 = some pos)
    (ha : stoi (payload.take pos) = .ok a) (hb : stoi (payload.drop (pos + 1)) = .ok b) :
    ∃ tasks, topicProgram.run (onCall payload) 13 =
      .done (.value .void) ⟨tasks, addition payload a b⟩ := by
  have hadd : add payload 11 =
      log [.str (bytes "[Handler] test() completed value "), .int 11] (
        addInt a b fun ab => addInt ab 11 fun sum =>
          log [.str (bytes "[Task] math.add result: "), .int sum] last) := by
    simp only [add, h, ha, hb]
  rw [run_onCall, hadd]
  simp only [addInt, addition, overflowOf, wrapInt]
  split_ifs <;> exact ⟨_, rfl⟩

/-! ## The condition -/

theorem idxOf?_append_comma {s : Str} (h : 44 ∉ s) (t : Str) :
    (s ++ 44 :: t).idxOf? 44 = some s.length := by
  induction s with
  | nil => rfl
  | cons c s ih =>
    rw [List.mem_cons, not_or] at h
    rw [List.cons_append, List.idxOf?_cons, ih h.2, List.length_cons, Option.map_some, if_neg]
    rw [beq_iff_eq]
    exact Ne.symm h.1

theorem Operands.idxOf? {payload : Str} {a b : ℤ} (h : Operands payload a b) :
    ∃ pos, payload.idxOf? 44 = some pos ∧ stoi (payload.take pos) = .ok a ∧
      stoi (payload.drop (pos + 1)) = .ok b := by
  obtain ⟨s, t, rfl, hs, ht, ha, hb⟩ := h
  refine ⟨s.length, ?_, ?_, ?_⟩
  · exact idxOf?_append_comma hs.comma_notMem t
  · rw [List.take_left]
    exact stoi_of_intText hs ha
  · have hdrop : (s ++ 44 :: t).drop (s.length + 1) = t := by simp
    rw [hdrop]
    exact stoi_of_intText ht hb

theorem results_addition (payload : Str) (a b : ℤ) :
    results (addition payload a b) = [wrapInt (wrapInt (a + b) + 11)] := by
  unfold addition results overflowOf
  split_ifs <;> rfl

theorem overflow_notMem_addition {payload : Str} {a b : ℤ} :
    .effect .overflow .void ∉ addition payload a b ↔
      inIntRange (a + b) = true ∧ inIntRange (a + b + 11) = true := by
  have hopening : .effect .overflow .void ∉ opening payload ++ completed := by
    simp [opening, completed]
  have hof : ∀ n, .effect .overflow .void ∉ overflowOf n ↔ inIntRange n = true := fun n => by
    unfold overflowOf
    split_ifs with hn <;> simp [hn]
  rw [addition, List.mem_append, List.mem_append, List.mem_append, not_or, not_or, not_or, hof, hof]
  constructor
  · rintro ⟨⟨⟨-, hab⟩, hsum⟩, -⟩
    rw [wrapInt, if_pos hab] at hsum
    exact ⟨hab, hsum⟩
  · rintro ⟨hab, hsum⟩
    rw [wrapInt, if_pos hab]
    exact ⟨⟨⟨hopening, hab⟩, hsum⟩, by simp [closing]⟩

/-- When `std::stoi` accepts both parts. -/
theorem addsExactly_of_ok {payload : Str} {pos : ℕ} {a b : ℤ} (h : payload.idxOf? 44 = some pos)
    (ha : stoi (payload.take pos) = .ok a) (hb : stoi (payload.drop (pos + 1)) = .ok b) :
    AddsExactly payload ↔ Operands payload a b ∧ inIntRange (a + b) = true ∧
      inIntRange (a + b + 11) = true := by
  obtain ⟨tasks, hrun⟩ := run_ok h ha hb
  -- operands, if there are any, are what `std::stoi` has yielded
  have hunique : ∀ a' b', Operands payload a' b' → a' = a ∧ b' = b := fun a' b' hop => by
    obtain ⟨pos', hpos, ha', hb'⟩ := hop.idxOf?
    obtain rfl := Option.some.inj (h.symm.trans hpos)
    exact ⟨Except.ok.inj (ha'.symm.trans ha), Except.ok.inj (hb'.symm.trans hb)⟩
  constructor
  · rintro ⟨n, m, hn, hover, -, hnone⟩
    obtain ⟨-, rfl⟩ := Program.run_unique hn hrun
    refine ⟨?_, overflow_notMem_addition.1 hover⟩
    by_contra hop
    have hempty := hnone fun ⟨a', b', hop'⟩ => by
      obtain ⟨rfl, rfl⟩ := hunique a' b' hop'
      exact hop hop'
    rw [results_addition] at hempty
    cases hempty
  · rintro ⟨hop, hrange⟩
    refine ⟨13, _, hrun, overflow_notMem_addition.2 hrange, fun a' b' hop' => ?_, fun hnone => ?_⟩
    · obtain ⟨rfl, rfl⟩ := hunique a' b' hop'
      refine ⟨1, 11, by simp [addition, opening], ?_⟩
      rw [results_addition, wrapInt, wrapInt, if_pos hrange.1, if_pos hrange.2]
    · exact absurd ⟨a, b, hop⟩ hnone

/-- When `std::stoi` throws on one of the parts, so does `on_call`. -/
theorem not_addsExactly_of_error {payload : Str} {pos : ℕ} {e : StdException}
    (h : payload.idxOf? 44 = some pos)
    (hs : stoi (payload.take pos) = .error e ∨
      ∃ a, stoi (payload.take pos) = .ok a ∧ stoi (payload.drop (pos + 1)) = .error e) :
    ¬ AddsExactly payload ∧ ∀ a b, ¬ Operands payload a b := by
  constructor
  · rintro ⟨n, m, hn, -⟩
    obtain ⟨m', hrun⟩ := run_error h hs
    cases (Program.run_unique hn hrun).1
  · intro a b hop
    obtain ⟨pos', hpos, ha, hb⟩ := hop.idxOf?
    obtain rfl := Option.some.inj (h.symm.trans hpos)
    rcases hs with he | ⟨a', -, he⟩
    · cases he.symm.trans ha
    · cases he.symm.trans hb

/-- `math.add` does what is asked of it exactly on the payloads without a comma, and on those that
give two operands whose sum, and whose sum with the value of `test()`, is in the range of `int`. -/
theorem addsExactly_iff (payload : Str) :
    AddsExactly payload ↔ 44 ∉ payload ∨ ∃ a b, Operands payload a b ∧
      inIntRange (a + b) = true ∧ inIntRange (a + b + 11) = true := by
  cases h : payload.idxOf? 44 with
  | none =>
    obtain ⟨tasks, hrun⟩ := run_none h
    refine iff_of_true ⟨13, _, hrun, by simp [opening, completed, closing], fun a b hop => ?_,
      fun _ => rfl⟩ (.inl (List.idxOf?_eq_none_iff.1 h))
    obtain ⟨pos, hpos, -⟩ := hop.idxOf?
    cases h.symm.trans hpos
  | some pos =>
    have hcomma : 44 ∈ payload := by
      by_contra hnot
      cases (List.idxOf?_eq_none_iff.2 hnot).symm.trans h
    rw [or_iff_right (not_not_intro hcomma)]
    cases ha : stoi (payload.take pos) with
    | error e =>
      obtain ⟨hnot, hop⟩ := not_addsExactly_of_error h (.inl ha)
      exact iff_of_false hnot fun ⟨a, b, hab, _⟩ => hop a b hab
    | ok a =>
      cases hb : stoi (payload.drop (pos + 1)) with
      | error e =>
        obtain ⟨hnot, hop⟩ := not_addsExactly_of_error h (.inr ⟨a, ha, hb⟩)
        exact iff_of_false hnot fun ⟨a, b, hab, _⟩ => hop a b hab
      | ok b =>
        rw [addsExactly_of_ok h ha hb]
        refine ⟨fun hop => ⟨a, b, hop⟩, fun ⟨a', b', hop, hrange⟩ => ?_⟩
        obtain ⟨pos', hpos, ha', hb'⟩ := hop.idxOf?
        obtain rfl := Option.some.inj (h.symm.trans hpos)
        obtain rfl := Except.ok.inj (ha.symm.trans ha')
        obtain rfl := Except.ok.inj (hb.symm.trans hb')
        exact ⟨hop, hrange⟩

/-- What is not a number, a sum that is too large, and characters behind a number. -/
theorem not_addsExactly : ¬ AddsExactly (bytes "a,1") ∧ ¬ AddsExactly (bytes "2147483647,1") ∧
    ¬ AddsExactly (bytes "1,2x") := by
  have hletter : (bytes "a,1").idxOf? 44 = some 1 := by decide
  have hlarge : (bytes "2147483647,1").idxOf? 44 = some 10 := by decide
  have htail : (bytes "1,2x").idxOf? 44 = some 1 := by decide
  refine ⟨(not_addsExactly_of_error (e := .invalidArgument) hletter (.inl (by decide))).1, ?_, ?_⟩
  · rw [addsExactly_of_ok (a := 2147483647) (b := 1) hlarge (by decide) (by decide)]
    exact fun h => absurd h.2.1 (by decide)
  · rw [addsExactly_of_ok (a := 1) (b := 2) htail (by decide) (by decide)]
    rintro ⟨⟨s, t, hst, hs, ht, -⟩, -⟩
    have hx : (120 : UInt8) ∈ s ++ 44 :: t := hst ▸ (by decide)
    rw [List.mem_append, List.mem_cons] at hx
    obtain hx | hx | hx := hx
    · exact absurd (hs.of_mem hx) (by decide)
    · exact absurd hx (by decide)
    · exact absurd (ht.of_mem hx) (by decide)

end Math

end EllohimMQ
