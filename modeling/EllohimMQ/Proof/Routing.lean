import EllohimMQ.Model.MessageBroker

/-!
# Which consumer a publish calls

The registry is keyed by `joaat` hashes and compares no names, so a publish calls the first
registered consumer whose name has the hash of the topic.  Letter case never matters, because the
hash reads `toLower` of each character; a topic that equals no registered name can still have the
hash of one, for instance a registered name with a NUL character in front of it.
-/

namespace EllohimMQ

/-- Equal up to ASCII letter case. -/
def SameUpToCase (a b : Str) : Prop := a.map toLower = b.map toLower

instance (a b : Str) : Decidable (SameUpToCase a b) :=
  inferInstanceAs (Decidable (a.map toLower = b.map toLower))

/-- The hash only sees the lower-case characters. -/
theorem joaat_eq_of_sameUpToCase {a b : Str} (h : SameUpToCase a b) : joaat a = joaat b := by
  let stepLower (hash : Joaat) (c : UInt8) : Joaat :=
    let hash := hash + c.toBitVec.signExtend 32
    let hash := hash + (hash <<< 10)
    hash ^^^ (hash >>> 6)
  have key : ∀ s : Str, s.foldl joaatStep 0 = (s.map toLower).foldl stepLower 0 := by
    intro s
    rw [List.foldl_map]
    rfl
  unfold joaat
  rw [key a, key b, show a.map toLower = b.map toLower from h]

namespace Consumers

theorem addConsumerImpl_consumers (r : Consumers) (c : Consumer) (hash : Joaat) :
    (r.addConsumerImpl c).consumers hash =
      (r.consumers hash).or (if c.hash = hash then some c else none) := by
  unfold addConsumerImpl
  rcases hr : r.consumers c.hash with _ | c'
  · by_cases hc : c.hash = hash
    · subst hc
      simp [hr]
    · simp [hc, Function.update_of_ne (Ne.symm hc)]
  · by_cases hc : c.hash = hash
    · subst hc
      simp [hr]
    · simp [hc]

theorem foldl_addConsumerImpl (cs : List Consumer) (r : Consumers) (hash : Joaat) :
    (cs.foldl addConsumerImpl r).consumers hash =
      (r.consumers hash).or (cs.find? fun c => c.hash = hash) := by
  induction cs generalizing r with
  | nil => simp
  | cons c cs ih =>
    rw [List.foldl_cons, ih, addConsumerImpl_consumers, Option.or_assoc, List.find?_cons]
    congr 1
    by_cases hc : c.hash = hash <;> simp [hc]

/-- Looking up a hash finds the first consumer that was registered with it. -/
theorem getConsumerImpl_registered (cs : List Consumer) (hash : Joaat) :
    (registered cs).getConsumerImpl hash = cs.find? fun c => c.hash = hash := by
  unfold getConsumerImpl registered
  rw [foldl_addConsumerImpl]
  rfl

end Consumers

section

variable {C : Type} (J : Nlohmann) (lock : C → Bool) (b : MessageBroker C)

open MessageBroker Consumers

/-- Routing by name: the consumer called is the one registered under the topic's name, if any. -/
def ExactRouting (cs : List Consumer) (topic message : Str) : Prop :=
  (∀ c ∈ cs, (publish J lock (registered cs) b topic message).called = some c ↔
    SameUpToCase topic c.name) ∧
  ((∀ c ∈ cs, ¬ SameUpToCase topic c.name) →
    (publish J lock (registered cs) b topic message).called = none)

/-- Routing goes by hash: the consumer registered under `c.name` is called exactly when the topic
has the hash of that name and no earlier registration has it; a topic whose hash is registered for
no name calls nothing; and a topic that equals the name up to letter case always has its hash. -/
theorem routing_by_hash {cs : List Consumer}
    (hnames : cs.Pairwise fun c c' => ¬ SameUpToCase c.name c'.name) (topic message : Str) :
    let called := (publish J lock (registered cs) b topic message).called
    (∀ pre c post, cs = pre ++ c :: post →
      (called = some c ↔ joaat topic = joaat c.name ∧ ∀ c' ∈ pre, joaat c'.name ≠ joaat topic)) ∧
    ((∀ c ∈ cs, joaat c.name ≠ joaat topic) → called = none) ∧
    (∀ c ∈ cs, SameUpToCase topic c.name →
      (∀ c' ∈ cs, joaat c'.name = joaat c.name → c' = c) → called = some c) := by
  intro called
  have hcalled : called = cs.find? fun c => joaat c.name = joaat topic := by
    have h : called = cs.find? fun c => c.hash = joaat topic := getConsumerImpl_registered cs _
    simpa only [Consumer.hash_eq] using h
  refine ⟨?_, ?_, ?_⟩
  · rintro pre c post rfl
    have hpre : c ∉ pre := by
      intro hmem
      rw [List.pairwise_append] at hnames
      exact hnames.2.2 c hmem c (by simp) rfl
    constructor
    · intro h
      rw [hcalled] at h
      have hc := List.find?_some h
      rw [decide_eq_true_eq] at hc
      refine ⟨hc.symm, fun c' hc' hhash => ?_⟩
      rw [List.find?_append] at h
      rcases hp : pre.find? fun c' => joaat c'.name = joaat topic with _ | c''
      · rw [List.find?_eq_none] at hp
        exact absurd hhash (by simpa using hp c' hc')
      · rw [hp, Option.some_or, Option.some.injEq] at h
        exact hpre (h ▸ List.mem_of_find?_eq_some hp)
    · rintro ⟨hc, hfirst⟩
      rw [hcalled, List.find?_eq_some_iff_append]
      exact ⟨by simp [hc], pre, post, rfl, by simpa using hfirst⟩
  · intro h
    rw [hcalled, List.find?_eq_none]
    simpa using h
  · intro c hc hsame hunique
    have hjoaat := joaat_eq_of_sameUpToCase hsame
    rcases hf : cs.find? fun c' => joaat c'.name = joaat topic with _ | c'
    · rw [List.find?_eq_none] at hf
      exact absurd hjoaat.symm (by simpa using hf c hc)
    · have hc' := List.find?_some hf
      rw [decide_eq_true_eq] at hc'
      rw [hcalled, hf, hunique c' (List.mem_of_find?_eq_some hf) (hc'.trans hjoaat)]

end

/-- The shipped consumers, asked for the topic `math.add` in upper case. -/
theorem routing_by_hash_shipped :
    (MessageBroker.publish (C := ℕ) (tableJson []) (fun _ => true)
      (.registered [mathConsumer, helloConsumer]) .empty (bytes "MATH.ADD") []).called =
        some mathConsumer := by
  refine ((routing_by_hash (tableJson []) (fun _ => true) .empty ?_ (bytes "MATH.ADD") []).1
    [] mathConsumer [helloConsumer] rfl).2 ⟨?_, ?_⟩
  · decide
  · decide
  · simp

/-- A NUL in front of `math.add` changes the topic but not the hash: the first additions leave the
hash at zero. -/
theorem routing_nul_math :
    [mathConsumer, helloConsumer].Pairwise (fun c c' => ¬ SameUpToCase c.name c'.name) ∧
    ¬ ExactRouting (C := ℕ) (tableJson []) (fun _ => true) .empty [mathConsumer, helloConsumer]
      (0 :: bytes "math.add") [] := by
  refine ⟨by decide, fun h => ?_⟩
  have hnone := h.2 (by decide)
  exact absurd hnone (by decide)

end EllohimMQ
