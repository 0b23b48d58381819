import EllohimMQ.Proof.AsyncPlaces

/-!
# The frames of `async.hpp` are destroyed once

The entry in `handle_refs` of a coroutine is made when it is first scheduled and goes with its frame,
in the runs whose steps are `tidy`: no object that holds a coroutine without an entry is dropped, and
a request that finds an entry finds a coroutine that is through its final awaiter.  The request of the
final awaiter is then still there as long as the frame is (`Counted.requested`).
-/

namespace EllohimMQ

open Transition

namespace AsyncScheduler

/-- The object holds no coroutine that was not scheduled. -/
def started (s : AsyncScheduler) (o : ℕ) : Bool :=
  match (s.objects[o]?).join with
  | some ⟨some h, some k⟩ => (s.memory h).all fun f => f.state = k → s.handleRefs h ≠ none
  | _ => true

/-- A handle that is used is that of a frame, also at a push; a request that finds an entry finds a
coroutine that has completed its state; and an object that is dropped or assigned to holds no
coroutine that was not scheduled. -/
def tidy (s : AsyncScheduler) : AsyncStep → Bool
  | .advance t =>
    match s.threads[t]? with
    | some (.scheduling h _) => (s.memory h).isSome
    | some (.awaitSuspend _ _ (some coro)) => (s.memory coro).isSome
    | some (.inserting _ h _) => s.handleRefs h ≠ none ∨ (s.memory h).isSome
    | some (.destroying (h :: _)) =>
      s.handleRefs h = none ∨ (s.memory h).any fun f => s.completed f.state
    | _ => true
  | .call _ (.drop o) => s.started o
  | .call _ (.assign o other) => o = other ∨ s.started o
  | _ => true

/-- What the runs of tidy steps keep beyond `Single`. -/
structure Counted (s : AsyncScheduler) : Prop where
  one : ∀ a n, s.handleRefs a = some n → n = 1
  /-- A coroutine without an entry is still owned. -/
  unscheduled : ∀ a f, s.memory a = some f → s.handleRefs a = none →
    f.point = .initialSuspend ∧ s.places.count (.parked a) = 0 ∧
      some ⟨some a, some f.state⟩ ∈ s.objects
  /-- A coroutine that is at its end is still to be cleaned up. -/
  requested : ∀ a f, s.memory a = some f → s.completed f.state = true → a ∈ s.pending
  detaching : ∀ x ∈ s.threads, ∀ o h, x.detaches = some (o, h) →
    ∃ k, s.objects[o]? = some (some ⟨some h, some k⟩)
  detachers : ∀ o, (s.threads.flatMap fun x => x.detaching.toList).count o ≤ 1
  destroyed : ∀ k c, s.states[k]? = some c →
    (c.destroyed = 0 ∧ ∃ f, s.memory c.address = some f ∧ f.state = k) ∨
      (c.destroyed = 1 ∧ c.completed = true ∧ ∀ f, s.memory c.address = some f → f.state ≠ k)

variable {s s' : AsyncScheduler} {l : AsyncStep}

theorem detaching_eq (x : ThreadPoint) : x.detaching = x.detaches.map Prod.fst := by
  cases x with
  | scheduling h caller | counting h caller | inserting i h caller =>
    rcases caller with ⟨_, _ | _⟩ | _ | _ <;> rfl
  | _ => rfl

theorem object_eq_some {o : ℕ} {a : Async} (h : s.object o = some a) :
    s.objects[o]? = some (some a) ∧ ∀ x ∈ s.threads, x.detaching ≠ some o := by
  unfold object at h
  split_ifs at h with hany
  refine ⟨?_, fun x hx hdet => hany ?_⟩
  · rcases ho : s.objects[o]? with _ | _ | _ <;> simp_all
  · exact List.any_eq_true.2 ⟨x, hx, by simp [hdet]⟩

/-- The frame that a tidy request destroys has completed its state. -/
theorem completed_of_tidy {t : ℕ} {h : Address} {requests : List Address} {f : PromiseFrame}
    (hok : s.tidy (.advance t) = true) (hx : s.threads[t]? = some (.destroying (h :: requests)))
    (hrefs : s.handleRefs h ≠ none) (hf : s.memory h = some f) : s.completed f.state = true := by
  simpa [tidy, hx, hrefs, hf] using hok

theorem sound_of_tidy (hc : s.Counted) (hok : s.tidy l = true) (t : ℕ) (x : ThreadPoint)
    (hl : l = .advance t) (hx : s.threads[t]? = some x) : s.Sound x where
  scheduling h caller hxe := by
    subst hl hxe
    simpa [tidy, hx, Option.isSome_iff_ne_none] using hok
  awaitSuspend h k coro hxe := by
    subst hl hxe
    simpa [tidy, hx, Option.isSome_iff_ne_none] using hok
  inserting i h caller hxe hrefs := by
    subst hl hxe
    obtain ⟨f, hf⟩ := Option.isSome_iff_exists.1 (by simpa [tidy, hx, hrefs] using hok)
    obtain ⟨hpoint, hparked, -⟩ := hc.unscheduled h f hf hrefs
    exact ⟨⟨f, hf, by rw [hpoint]; rfl⟩, hparked ▸ Nat.zero_le _⟩
  destroying h requests f hxe hrefs hf _ := by
    subst hl hxe
    exact completed_of_tidy hok hx hrefs hf

/-! ## Entries and owners -/

/-- A tidy request that finds an entry finds a coroutine that is done. -/
theorem not_erased (hk : s.Single) {t : ℕ} {h : Address} {requests : List Address}
    (hx : s.threads[t]? = some (.destroying (h :: requests))) (hrefs : s.handleRefs h ≠ none)
    (hok : s.tidy (.advance t) = true) : s.done h ≠ some false := by
  intro hdone
  obtain ⟨f, hf, hpoint⟩ := Option.map_eq_some_iff.1 hdone
  exact of_decide_eq_false hpoint (hk.point_of_completed hf (completed_of_tidy hok hx hrefs hf))

theorem Moves.one (hm : s.Moves l s') (hk : s.Single) (hc : s.Counted) {a : Address} {n : ℤ}
    (hn : s'.handleRefs a = some n) : n = 1 := by
  cases hm with
  | insert =>
    simp only [Function.update_apply] at hn
    split_ifs at hn
    · exact (Option.some.inj hn).symm
    · exact hc.one a n hn
  | decrement hx hrefs hle =>
    obtain rfl := hc.one _ _ hrefs
    exact absurd le_rfl hle
  | erase | destroy =>
    simp only [Function.update_apply] at hn
    split_ifs at hn
    exact hc.one a n hn
  | dangling hx hrefs hm => exact absurd hm (hk.entries _ hrefs)
  | _ => exact hc.one a n hn

/-- A coroutine without an entry had none before, or is new. -/
theorem Moves.unscheduled_before (hm : s.Moves l s') (hk : s.Single) (hc : s.Counted)
    (hok : s.tidy l = true) {b : Address} {g : PromiseFrame} (hg : s'.memory b = some g)
    (hb : s'.handleRefs b = none) :
    (s.memory b = some g ∧ s.handleRefs b = none) ∨ (s.memory b = none ∧ s' = s.create b) := by
  have hset : ∀ {a : Address} {point : FramePoint}, (s.handleRefs a = none → False) →
      (s.setPoint a point).memory b = some g → s.handleRefs b = none → s.memory b = some g := by
    intro a point ha hg hb
    have hne : b ≠ a := by
      rintro rfl
      exact ha hb
    simpa only [setPoint, Function.update_of_ne hne] using hg
  have hrunning : ∀ {t : ℕ} {c : Address}, s.threads[t]? = some (.body c) →
      s.handleRefs c = none → False := by
    intro t c hx hrefs
    obtain ⟨f, hf, hpoint⟩ := hk.of_running (count_pos hx (List.mem_singleton_self _))
    have h := (hc.unscheduled c f hf hrefs).1
    rw [hpoint] at h
    cases h
  cases hm with
  | resume hx hf hp =>
    refine .inl ⟨hset (fun hrefs => ?_) hg hb, hb⟩
    have hpos := count_pos hx (List.mem_singleton_self _)
    have hzero := (hc.unscheduled _ _ hf hrefs).2.1
    omega
  | suspend hx => exact .inl ⟨hset (hrunning hx) hg hb, hb⟩
  | ret hx => exact .inl ⟨hset (hrunning hx) hg hb, hb⟩
  | insert =>
    simp only [Function.update_apply] at hb
    split_ifs at hb
    exact .inl ⟨hg, hb⟩
  | decrement =>
    simp only [Function.update_apply] at hb
    split_ifs at hb
    exact .inl ⟨hg, hb⟩
  | erase hx hrefs hdone => exact absurd hdone (not_erased hk hx hrefs hok)
  | destroy =>
    simp only [Function.update_apply] at hg hb
    split_ifs at hg
    rw [if_neg ‹_›] at hb
    exact .inl ⟨hg, hb⟩
  | @create t address hmem =>
    by_cases he : b = address
    · subst he
      exact .inr ⟨hmem, rfl⟩
    · simp only [AsyncScheduler.create, Function.update_of_ne he] at hg
      exact .inl ⟨hg, hb⟩
  | dangling hx hrefs hm => exact absurd hm (hk.entries _ hrefs)
  | _ => exact .inl ⟨hg, hb⟩

/-- The clearing of an object after `schedule` leaves the owner of any other coroutine. -/
theorem mem_scheduled (hc : s.Counted) {t : ℕ} {x : ThreadPoint} {h : Address} {caller : Caller}
    (hx : s.threads[t]? = some x) (hcaller : x = .scheduling h caller ∨ ∃ i, x = .inserting i h caller)
    {b : Address} {k : ℕ} (hb : b ≠ h) (hmem : some ⟨some b, some k⟩ ∈ s.objects) :
    some ⟨some b, some k⟩ ∈ (s.scheduled t caller).objects := by
  rcases caller with ⟨site, _ | o⟩ | _ | _
  · exact hmem
  · have hdetaches : x.detaches = some (o, h) := by
      rcases hcaller with rfl | ⟨i, rfl⟩ <;> rfl
    obtain ⟨k', ho⟩ := hc.detaching x (List.mem_of_getElem? hx) o h hdetaches
    exact Table.mem_set_of_mem ho hmem (by simp [hb])
  · exact hmem
  · exact hmem

/-- The owner of a coroutine without an entry is kept. -/
theorem Moves.owned (hm : s.Moves l s') (hk : s.Single) (hc : s.Counted) (hok : s.tidy l = true)
    {b : Address} {g : PromiseFrame} (hg : s.memory b = some g) (hb : s.handleRefs b = none)
    (hb' : s'.handleRefs b = none) (hmem : some ⟨some b, some g.state⟩ ∈ s.objects) :
    some ⟨some b, some g.state⟩ ∈ s'.objects := by
  -- an object that is dropped or assigned to is not the owner
  have hstarted : ∀ {o : ℕ} {a : Async}, s.objects[o]? = some (some a) → s.started o = true →
      some (⟨some b, some g.state⟩ : Async) ≠ some a := by
    rintro o a ho hst he
    obtain rfl := Option.some.inj he
    simp [started, ho, hg, hb] at hst
  cases hm with
  | @refused t x h caller hx hwhy =>
    refine mem_scheduled hc hx (hwhy.imp And.left And.left) ?_ hmem
    rintro rfl
    rcases hwhy with ⟨-, hdone⟩ | ⟨-, hrefs⟩
    · obtain ⟨f, hf, hfinal⟩ := done_eq_true.1 hdone
      have hpoint := (hc.unscheduled b f hf hb).1
      rw [hfinal] at hpoint
      cases hpoint
    · exact hrefs hb
  | @insert t i h caller hx =>
    refine mem_scheduled hc hx (.inr ⟨i, rfl⟩) ?_ hmem
    rintro rfl
    simp at hb'
  | create => exact List.mem_append_left _ hmem
  | @move t o a ho =>
    obtain ⟨ho, -⟩ := object_eq_some ho
    by_cases he : some (⟨some b, some g.state⟩ : Async) = some a
    · exact List.mem_append_right _ (List.mem_singleton.2 he)
    · exact List.mem_append_left _ (Table.mem_set_of_mem ho hmem he)
  | @assign t o other a a' ho hother hne =>
    obtain ⟨ho, -⟩ := object_eq_some ho
    obtain ⟨hother, -⟩ := object_eq_some hother
    have hne' : some (⟨some b, some g.state⟩ : Async) ≠ some a :=
      hstarted ho (by simpa [tidy, hne] using hok)
    by_cases he : some (⟨some b, some g.state⟩ : Async) = some a'
    · -- the owner is moved from `other` to `o`
      refine List.mem_of_getElem? (i := o) ?_
      rw [List.getElem?_set_ne (Ne.symm hne), he,
        List.getElem?_set_self (List.getElem?_eq_some_iff.1 ho).1]
    · refine Table.mem_set_of_mem ?_ (Table.mem_set_of_mem ho hmem hne') he
      rw [List.getElem?_set_ne hne, hother]
  | @drop t o a ho =>
    obtain ⟨ho, -⟩ := object_eq_some ho
    exact Table.mem_set_of_mem ho hmem (hstarted ho hok)
  | dangling hx hrefs hm => exact absurd hm (hk.entries _ hrefs)
  | _ => exact hmem

/-- A coroutine that was in no place and has not started is still in none, unless it is pushed. -/
theorem Change.parked_zero (hch : s.Change l s') {b : Address} {g : PromiseFrame}
    (hg : s'.memory b = some g) (hpoint : g.point = .initialSuspend)
    (hrefs : ∀ t i h caller, l = .advance t → s.threads[t]? = some (.inserting i h caller) →
      s.handleRefs h = none → h ≠ b)
    (hzero : s.places.count (.parked b) = 0) : s'.places.count (.parked b) = 0 := by
  cases hch with
  | same hcount | create _ hcount | destroy _ _ _ _ _ hcount => rw [hcount, hzero]
  | lost _ hcount | overwritten _ _ _ _ hcount | complete _ _ _ hcount =>
    have := hcount (.parked b)
    omega
  | @pushed t i h caller hl hx hnone _ hcount =>
    have hne := hrefs t i h caller hl hx hnone
    rw [hcount, hzero, List.count_eq_zero.2 (by simpa using hne.symm)]
  | @exchange a f point p q hf hp hpos hq hstarted hcount hmemory =>
    by_cases he : b = a
    · subst he
      rw [hmemory, Function.update_self, Option.some.injEq] at hg
      subst hg
      exact absurd hpoint hstarted
    · have hq' : [q].count (.parked b) = 0 := count_of_address_ne (by rw [hq.1]; exact he)
      have := hcount (.parked b)
      omega

theorem Counted.unscheduled_step (hc : s.Counted) (hk : s.Single) (hok : s.tidy l = true)
    (hs : s.step l = some s') {b : Address} {g : PromiseFrame} (hg : s'.memory b = some g)
    (hb : s'.handleRefs b = none) :
    g.point = .initialSuspend ∧ s'.places.count (.parked b) = 0 ∧
      some ⟨some b, some g.state⟩ ∈ s'.objects := by
  have hm := step_cases hs
  have hch := hm.change hk (sound_of_tidy hc hok)
  rcases hm.unscheduled_before hk hc hok hg hb with ⟨hg₀, hb₀⟩ | ⟨hnone, rfl⟩
  · obtain ⟨hpoint, hzero, hmem⟩ := hc.unscheduled b g hg₀ hb₀
    refine ⟨hpoint, hch.parked_zero hg hpoint ?_ hzero, hm.owned hk hc hok hg₀ hb₀ hb hmem⟩
    rintro t i h caller rfl hx hrefs rfl
    obtain rfl := step_insert hx hrefs hs
    simp at hb
  · simp only [AsyncScheduler.create, Function.update_self, Option.some.injEq] at hg
    subst hg
    refine ⟨rfl, ?_, List.mem_append_right _ (List.mem_singleton_self _)⟩
    have hroom := hk.placed (.parked b)
    rw [room_of_none hnone] at hroom
    rw [count_create]
    omega

/-! ## Requests -/

theorem mem_pending_set {t : ℕ} {x y : ThreadPoint} {b : Address} (hx : s.threads[t]? = some x)
    (ht : s'.threads = s.threads.set t y) (hclean : s.cleanupTasks ⊆ s'.cleanupTasks)
    (hxy : b ∈ x.requests → b ∈ y.requests) (hb : b ∈ s.pending) : b ∈ s'.pending := by
  rcases List.mem_append.1 hb with hb | hb
  · exact List.mem_append_left _ (hclean hb)
  · exact List.mem_append_right _ (ht ▸ Table.mem_flatMap_set hx hb hxy)

/-- A request is there until it finds no entry or destroys the frame. -/
theorem Moves.pending_mono (hm : s.Moves l s') (hk : s.Single) (hc : s.Counted)
    (hok : s.tidy l = true) {b : Address} (hb : b ∈ s.pending) :
    b ∈ s'.pending ∨ s.handleRefs b = none ∨ s'.memory b = none := by
  have hset : ∀ {t : ℕ} {x y : ThreadPoint} {s' : AsyncScheduler}, s.threads[t]? = some x →
      x.requests = [] → s'.threads = s.threads.set t y → s'.cleanupTasks = s.cleanupTasks →
      b ∈ s'.pending ∨ s.handleRefs b = none ∨ s'.memory b = none := fun hx hrequests ht hclean =>
    .inl (mem_pending_set hx ht (hclean ▸ List.Subset.refl _) (by simp [hrequests]) hb)
  cases hm with
  | clock | missing | notSuspended | create | move | stay => exact .inl hb
  | walk hx _ hrequests =>
    exact .inl (mem_pending_set hx rfl (List.Subset.refl _) (by rw [hrequests]; exact id) hb)
  | skip hx _ _ hrequests => exact hset hx hrequests.1 rfl rfl
  | take hx hplaces => exact hset hx hplaces.2 rfl rfl
  | call hx hsite => exact hset hx (site_requests hsite).1 rfl rfl
  | refused hx hwhy =>
    refine hset hx ?_ rfl rfl
    rcases hwhy with ⟨rfl, -⟩ | ⟨⟨i, rfl⟩, -⟩ <;> rfl
  | popReady hx | pushFront hx | resume hx | suspend hx | ret hx | register hx | late hx
  | insert hx | emplace hx | complete hx => exact hset hx rfl rfl rfl
  | @request t h continuation hx =>
    by_cases he : b = h
    · exact .inl (List.mem_append_left _ (List.mem_append_right _ (List.mem_singleton.2 he)))
    · refine .inl (mem_pending_set hx rfl (List.subset_append_left _ _) (fun hmem => ?_) hb)
      exact absurd (List.mem_singleton.1 hmem) he
  | sweep hx =>
    rcases List.mem_append.1 hb with hb | hb
    · have hne : s.cleanupTasks ≠ [] := List.ne_nil_of_mem hb
      refine .inl (List.mem_append_right _ ?_)
      simp only [setThread, if_neg hne]
      exact List.mem_flatMap.2 ⟨_, List.mem_set (List.getElem?_eq_some_iff.1 hx).1 _, hb⟩
    · exact .inl (List.mem_append_right _ (Table.mem_flatMap_set hx hb (by simp [ThreadPoint.requests])))
  | @ignore t h requests hx hrefs =>
    by_cases he : b = h
    · exact .inr (.inl (he ▸ hrefs))
    · refine .inl (mem_pending_set hx rfl (List.Subset.refl _) (fun hmem => ?_) hb)
      exact (List.mem_cons.1 hmem).resolve_left he
  | decrement _ hrefs hle =>
    obtain rfl := hc.one _ _ hrefs
    exact absurd le_rfl hle
  | erase hx hrefs hdone => exact absurd hdone (not_erased hk hx hrefs hok)
  | @destroy t h requests f hx =>
    by_cases he : b = h
    · exact .inr (.inr (by simp [he]))
    · refine .inl (mem_pending_set hx rfl (List.Subset.refl _) (fun hmem => ?_) hb)
      exact (List.mem_cons.1 hmem).resolve_left he
  | dangling hx hrefs hm => exact absurd hm (hk.entries _ hrefs)
  | assign | drop =>
    refine .inl ((List.mem_append.1 hb).elim (fun hb => ?_) (List.mem_append_right _))
    exact List.mem_append_left _ (List.mem_append_left _ hb)

/-- A state that was completed before is that of a frame that was there. -/
theorem Change.frame_before (hch : s.Change l s') {b : Address} {g : PromiseFrame}
    (hg : s'.memory b = some g) (hcompleted : s.completed g.state = true) :
    ∃ f, s.memory b = some f ∧ f.state = g.state := by
  cases hch with
  | same _ hmemory | lost _ _ hmemory | pushed _ _ _ _ _ hmemory | overwritten _ _ _ _ _ hmemory
  | complete _ _ _ _ hmemory => exact ⟨g, hmemory ▸ hg, rfl⟩
  | @exchange a f point p q hf _ _ _ _ _ hmemory =>
    rw [hmemory, Function.update_apply] at hg
    split_ifs at hg with he
    · exact ⟨f, he ▸ hf, Option.some.inj hg ▸ rfl⟩
    · exact ⟨g, hg, rfl⟩
  | create _ _ hmemory =>
    rw [hmemory, Function.update_apply] at hg
    split_ifs at hg
    · rw [← Option.some.inj hg, completed_length] at hcompleted
      cases hcompleted
    · exact ⟨g, hg, rfl⟩
  | destroy _ _ _ _ _ _ hmemory =>
    rw [hmemory, Function.update_apply] at hg
    split_ifs at hg
    exact ⟨g, hg, rfl⟩

theorem Counted.requested_step (hc : s.Counted) (hk : s.Single) (hok : s.tidy l = true)
    (hs : s.step l = some s') {b : Address} {g : PromiseFrame} (hg : s'.memory b = some g)
    (hcompleted : s'.completed g.state = true) : b ∈ s'.pending := by
  have hm := step_cases hs
  have hch := hm.change hk (sound_of_tidy hc hok)
  by_cases hbefore : s.completed g.state = true
  · obtain ⟨f, hf, hstate⟩ := hch.frame_before hg hbefore
    rcases hm.pending_mono hk hc hok (hc.requested b f hf (hstate ▸ hbefore)) with hb | hrefs | hnone
    · exact hb
    · -- a coroutine without an entry is not through its final awaiter
      have hpoint := (hc.unscheduled b f hf hrefs).1
      have huncompleted := hk.uncompleted b f hf (by simp [hpoint])
      rw [hstate, hbefore] at huncompleted
      cases huncompleted
    · rw [hnone] at hg
      cases hg
  · cases hch with
    | @complete a f hf hpos hrequest _ hmemory hcompleted' =>
      rw [hcompleted', Function.update_apply] at hcompleted
      split_ifs at hcompleted with hstate
      · rw [hmemory] at hg
        exact hk.state_inj hg hf hstate ▸ hrequest
      · exact absurd hcompleted hbefore
    | same _ _ h | lost _ _ _ h | pushed _ _ _ _ _ _ h | overwritten _ _ _ _ _ _ h
    | exchange _ _ _ _ _ _ _ h | create _ _ _ h | destroy _ _ _ _ _ _ _ h =>
      rw [h] at hcompleted
      exact absurd hcompleted hbefore

/-! ## Objects that are being detached -/

theorem count_detaching {t : ℕ} {x y : ThreadPoint} (hx : s.threads[t]? = some x) (o : ℕ) :
    ((s.threads.set t y).flatMap fun x => x.detaching.toList).count o +
        x.detaching.toList.count o =
      (s.threads.flatMap fun x => x.detaching.toList).count o + y.detaching.toList.count o :=
  Table.count_flatMap_set hx y (fun x => x.detaching.toList) o

theorem Moves.detachers (hm : s.Moves l s') (hk : s.Single) (hc : s.Counted) (o : ℕ) :
    (s'.threads.flatMap fun x => x.detaching.toList).count o ≤ 1 := by
  have hle := hc.detachers o
  rcases hm.thread hk with ht | ⟨t, x, y, hx, ht, -, hy⟩
  · rw [ht]
    exact hle
  have hcount := count_detaching (y := y) hx o
  rw [detaching_eq x, detaching_eq y] at hcount
  rw [ht]
  rcases hy with hy | hy | ⟨o', h, k, hx', hy, ho⟩
  · simp only [hy, Option.map_none, Option.toList_none, List.count_nil] at hcount
    omega
  · rw [hy] at hcount
    omega
  · simp only [hx', hy, Option.map_none, Option.map_some, Option.toList_none, Option.toList_some,
      List.count_nil, List.count_singleton] at hcount
    split_ifs at hcount with he
    · obtain rfl := eq_of_beq he
      have hzero : (s.threads.flatMap fun x => x.detaching.toList).count o' = 0 := by
        refine List.count_eq_zero.2 fun hmem => ?_
        obtain ⟨z, hz, hzo⟩ := List.mem_flatMap.1 hmem
        exact (object_eq_some ho).2 z hz (Option.mem_toList.1 hzo)
      omega
    · omega

/-- An object is cleared by the only thread that was detaching it. -/
theorem objects_scheduled (hc : s.Counted) {t : ℕ} {x : ThreadPoint} {h : Address} {caller : Caller}
    (hx : s.threads[t]? = some x) (hcaller : x = .scheduling h caller ∨ ∃ i, x = .inserting i h caller)
    {o : ℕ} {a : Async} (ho : s.objects[o]? = some (some a)) {z : ThreadPoint}
    (hz : z ∈ s.threads.set t caller.returns) (hdet : z.detaching = some o) :
    (s.scheduled t caller).objects[o]? = some (some a) := by
  rcases caller with ⟨site, _ | o'⟩ | _ | _
  · exact ho
  · refine (List.getElem?_set_ne ?_).trans ho
    rintro rfl
    have hxo : x.detaching = some o' := by
      rcases hcaller with rfl | ⟨i, rfl⟩ <;> rfl
    have hy : (Caller.program site (some o')).returns.detaching = none := by
      rw [detaching_eq, (returns_quiet _).2]
      rfl
    have hcount := count_detaching (y := (Caller.program site (some o')).returns) hx o'
    have hle := hc.detachers o'
    have hpos : 0 < ((s.threads.set t (Caller.program site (some o')).returns).flatMap
        fun x => x.detaching.toList).count o' :=
      List.count_pos_iff.2 (List.mem_flatMap.2 ⟨z, hz, Option.mem_toList.2 hdet⟩)
    rw [hxo, hy, Option.toList_some, List.count_singleton_self] at hcount
    simp only [Option.toList_none, List.count_nil] at hcount
    omega
  · exact ho
  · exact ho

/-- An object stays as it is while a thread is detaching it. -/
theorem Moves.objects (hm : s.Moves l s') (hk : s.Single) (hc : s.Counted) {o : ℕ} {a : Async}
    (ho : s.objects[o]? = some (some a)) {z : ThreadPoint} (hz : z ∈ s'.threads)
    (hdet : z.detaching = some o) : s'.objects[o]? = some (some a) := by
  have hother : ∀ {o' : ℕ} {a' : Async}, s.object o' = some a' → z ∈ s.threads → o' ≠ o := by
    rintro o' a' ho' hz rfl
    exact (object_eq_some ho').2 z hz hdet
  cases hm with
  | refused hx hwhy => exact objects_scheduled hc hx (hwhy.imp And.left And.left) ho hz hdet
  | @insert t i h caller hx => exact objects_scheduled hc hx (.inr ⟨i, rfl⟩) ho hz hdet
  | create => exact (List.getElem?_append_left (List.getElem?_eq_some_iff.1 ho).1).trans ho
  | move ho' =>
    have hlt := (List.getElem?_eq_some_iff.1 ho).1
    exact (List.getElem?_append_left (by rwa [List.length_set])).trans
      ((List.getElem?_set_ne (hother ho' hz)).trans ho)
  | assign ho' hb =>
    exact (List.getElem?_set_ne (hother hb hz)).trans
      ((List.getElem?_set_ne (hother ho' hz)).trans ho)
  | drop ho' => exact (List.getElem?_set_ne (hother ho' hz)).trans ho
  | dangling hx hrefs hm => exact absurd hm (hk.entries _ hrefs)
  | _ => exact ho

theorem Moves.detaching (hm : s.Moves l s') (hk : s.Single) (hc : s.Counted) {z : ThreadPoint}
    (hz : z ∈ s'.threads) {o : ℕ} {h : Address} (hdet : z.detaches = some (o, h)) :
    ∃ k, s'.objects[o]? = some (some ⟨some h, some k⟩) := by
  obtain ⟨k, ho⟩ : ∃ k, s.objects[o]? = some (some ⟨some h, some k⟩) := by
    rcases hm.thread hk with ht | ⟨t, x, y, hx, ht, -, hy⟩
    · exact hc.detaching z (ht ▸ hz) o h hdet
    · rcases List.mem_or_eq_of_mem_set (ht ▸ hz) with hz | rfl
      · exact hc.detaching z hz o h hdet
      · rcases hy with hy | hy | ⟨o', h', k, -, hy, ho⟩
        · rw [hy] at hdet
          cases hdet
        · exact hc.detaching x (List.mem_of_getElem? hx) o h (hy ▸ hdet)
        · rw [hy] at hdet
          obtain ⟨rfl, rfl⟩ := Prod.mk.inj (Option.some.inj hdet)
          exact ⟨k, (object_eq_some ho).1⟩
  exact ⟨k, hm.objects hk hc ho hz (by rw [detaching_eq, hdet]; rfl)⟩

/-! ## Destroyed frames -/

/-- The states and the frames are those that were there, and as often destroyed. -/
structure Keeps (s s' : AsyncScheduler) : Prop where
  states : ∀ (k : ℕ) (c' : CoroutineState), s'.states[k]? = some c' →
    ∃ c : CoroutineState, s.states[k]? = some c ∧ c'.address = c.address ∧
      c'.destroyed = c.destroyed ∧ (c.completed = true → c'.completed = true)
  memory : ∀ a, (s'.memory a).map PromiseFrame.state = (s.memory a).map PromiseFrame.state

/-- The frame of a state is still where it was. -/
theorem Keeps.frame_iff (h : s.Keeps s') {a : Address} {k : ℕ} :
    (∃ f, s'.memory a = some f ∧ f.state = k) ↔ ∃ f, s.memory a = some f ∧ f.state = k := by
  rw [← Option.map_eq_some_iff, ← Option.map_eq_some_iff, h.memory a]

theorem keeps_modify {k : ℕ} {g : CoroutineState → CoroutineState}
    (hg : ∀ c, (g c).address = c.address ∧ (g c).destroyed = c.destroyed ∧
      (c.completed = true → (g c).completed = true))
    (hs : s'.states = s.states.modify k g) (hmemory : s'.memory = s.memory) : s.Keeps s' where
  states := by
    intro j c' hc'
    rw [hs, List.getElem?_modify] at hc'
    obtain ⟨c, hc, rfl⟩ := Option.map_eq_some_iff.1 hc'
    split_ifs
    · exact ⟨c, hc, hg c⟩
    · exact ⟨c, hc, rfl, rfl, id⟩
  memory _ := by rw [hmemory]

theorem keeps_of_eq (hs : s'.states = s.states) (hmemory : s'.memory = s.memory) : s.Keeps s' where
  states _ c' hc' := ⟨c', hs ▸ hc', rfl, rfl, id⟩
  memory _ := by rw [hmemory]

theorem keeps_setPoint (hs : s'.states = s.states) {h : Address} {point : FramePoint}
    (hmemory : s'.memory = (s.setPoint h point).memory) : s.Keeps s' where
  states _ c' hc' := ⟨c', hs ▸ hc', rfl, rfl, id⟩
  memory a := by
    rw [hmemory, setPoint]
    simp only [Function.update_apply]
    split_ifs with he
    · subst he
      rcases s.memory a with _ | f <;> rfl
    · rfl

theorem keeps_scheduled (t : ℕ) {caller : Caller} (hs : s'.states = (s.scheduled t caller).states)
    (hmemory : s'.memory = s.memory) : s.Keeps s' := by
  rcases hlock : caller.lock with _ | k
  · exact keeps_of_eq (by simp only [hs, scheduled, hlock]) hmemory
  · exact keeps_modify (g := .setLocked false) (k := k) (fun _ => ⟨rfl, rfl, id⟩)
      (by simp only [hs, scheduled, hlock]) hmemory

theorem Moves.keeps (hm : s.Moves l s') (hk : s.Single) : s.Keeps s' ∨
    (∃ a, s.memory a = none ∧ s' = s.create a) ∨
    ∃ t h requests f, l = .advance t ∧ s.threads[t]? = some (.destroying (h :: requests)) ∧
      s.handleRefs h ≠ none ∧ s.memory h = some f ∧
      s'.states = s.states.modify f.state .countDestroyed ∧
      s'.memory = Function.update s.memory h none := by
  cases hm with
  | resume | suspend | ret => exact .inl (keeps_setPoint rfl rfl)
  | @register t k h =>
    exact .inl (keeps_modify (k := k) (g := fun c => (c.setContinuation h).setLocked true)
      (fun _ => ⟨rfl, rfl, id⟩) rfl rfl)
  | @late t k =>
    exact .inl (keeps_modify (k := k) (g := .setLocked true) (fun _ => ⟨rfl, rfl, id⟩) rfl rfl)
  | refused => exact .inl (keeps_scheduled _ rfl rfl)
  | @insert t i h caller => exact .inl (keeps_scheduled t rfl rfl)
  | @complete t h f =>
    exact .inl (keeps_modify (k := f.state) (g := .complete) (fun _ => ⟨rfl, rfl, fun _ => rfl⟩)
      rfl rfl)
  | destroy hx hrefs hf => exact .inr (.inr ⟨_, _, _, _, rfl, hx, hrefs, hf, rfl, rfl⟩)
  | create hm => exact .inr (.inl ⟨_, hm, rfl⟩)
  | dangling hx hrefs hm => exact absurd hm (hk.entries _ hrefs)
  | _ => exact .inl (keeps_of_eq rfl rfl)

theorem Counted.destroyed_step (hc : s.Counted) (hk : s.Single) (hok : s.tidy l = true)
    (hs : s.step l = some s') {k : ℕ} {c' : CoroutineState} (hc' : s'.states[k]? = some c') :
    (c'.destroyed = 0 ∧ ∃ f, s'.memory c'.address = some f ∧ f.state = k) ∨
      (c'.destroyed = 1 ∧ c'.completed = true ∧
        ∀ f, s'.memory c'.address = some f → f.state ≠ k) := by
  rcases (step_cases hs).keeps hk with hkeeps | ⟨a, hnone, rfl⟩ |
    ⟨t, h, requests, f, rfl, hx, hrefs, hf, hstates, hmemory⟩
  · obtain ⟨c, hc₀, haddress, hdestroyed, hcompleted⟩ := hkeeps.states k c' hc'
    rw [haddress, hdestroyed]
    rcases hc.destroyed k c hc₀ with ⟨hzero, hframe⟩ | ⟨hone, hdone, hne⟩
    · exact .inl ⟨hzero, hkeeps.frame_iff.2 hframe⟩
    · refine .inr ⟨hone, hcompleted hdone, fun f' hf' hstate => ?_⟩
      obtain ⟨f, hf, hstate⟩ := hkeeps.frame_iff.1 ⟨f', hf', hstate⟩
      exact hne f hf hstate
  · simp only [AsyncScheduler.create, List.getElem?_append] at hc' ⊢
    split_ifs at hc' with hlt
    · rcases hc.destroyed k c' hc' with ⟨hzero, f, hf, hstate⟩ | ⟨hone, hdone, hne⟩
      · have hne : c'.address ≠ a := by
          rintro rfl
          rw [hnone] at hf
          cases hf
        exact .inl ⟨hzero, f, by rw [Function.update_of_ne hne, hf], hstate⟩
      · refine .inr ⟨hone, hdone, fun f hf => ?_⟩
        rw [Function.update_apply] at hf
        split_ifs at hf
        · rw [← Option.some.inj hf]
          exact (ne_of_lt hlt).symm
        · exact hne f hf
    · obtain ⟨hlt', rfl⟩ := List.getElem?_eq_some_iff.1 hc'
      obtain rfl : k = s.states.length := by
        simp only [List.length_singleton] at hlt'
        omega
      refine .inl ⟨by simp [CoroutineState.new], ⟨.initialSuspend, s.states.length⟩, ?_, rfl⟩
      simp [CoroutineState.new]
  · have hcompleted := completed_of_tidy hok hx hrefs hf
    obtain ⟨c₀, hc₀, rfl⟩ := hk.address h f hf
    rw [hstates, List.getElem?_modify] at hc'
    obtain ⟨c, hck, rfl⟩ := Option.map_eq_some_iff.1 hc'
    by_cases he : f.state = k
    · subst he
      obtain rfl := Option.some.inj (hc₀.symm.trans hck)
      rw [if_pos rfl]
      have hzero : c₀.destroyed = 0 := by
        rcases hc.destroyed _ c₀ hck with ⟨hzero, -⟩ | ⟨-, -, hne⟩
        · exact hzero
        · exact absurd rfl (hne f hf)
      refine .inr ⟨?_, ?_, fun f' hf' => ?_⟩
      · show c₀.destroyed + 1 = 1
        omega
      · show c₀.completed = true
        simpa [completed, hck] using hcompleted
      · simp only [hmemory] at hf'
        rw [show (CoroutineState.countDestroyed c₀).address = c₀.address from rfl,
          Function.update_self] at hf'
        cases hf'
    · rw [if_neg he]
      rcases hc.destroyed k c hck with ⟨hzero, g, hg, hstate⟩ | ⟨hone, hdone, hne⟩
      · have hne : c.address ≠ c₀.address := by
          intro h
          rw [h, hf] at hg
          exact he (Option.some.inj hg ▸ hstate)
        exact .inl ⟨hzero, g, by rw [hmemory]; exact (Function.update_of_ne hne _ _).trans hg, hstate⟩
      · refine .inr ⟨hone, hdone, fun g hg => ?_⟩
        simp only [hmemory, Function.update_apply] at hg
        split_ifs at hg
        exact hne g hg

/-! ## Runs -/

theorem Counted.step (hc : s.Counted) (hk : s.Single) (hok : s.tidy l = true)
    (hs : s.step l = some s') : s'.Counted := by
  have hm := step_cases hs
  exact {
    one := fun _ _ => hm.one hk hc
    unscheduled := fun _ _ => hc.unscheduled_step hk hok hs
    requested := fun _ _ => hc.requested_step hk hok hs
    detaching := fun _ hz _ _ => hm.detaching hk hc hz
    detachers := hm.detachers hk hc
    destroyed := fun _ _ => hc.destroyed_step hk hok hs }

theorem counted_init (workers outsiders : ℕ) (next : BitVec 64) (clock : TimePoint) :
    (init workers outsiders next clock).Counted where
  one _ _ h := by cases h
  unscheduled _ _ h := by cases h
  requested _ _ h := by cases h
  detaching := by
    intro x hx o h hdet
    simp only [init, List.mem_append, List.mem_replicate] at hx
    rcases hx with ⟨-, rfl⟩ | ⟨-, rfl⟩ <;> cases hdet
  detachers o := by
    have hnone : ((init workers outsiders next clock).threads.flatMap
        fun x => x.detaching.toList) = [] := by
      simp [init, ThreadPoint.detaching, ThreadPoint.caller]
    simp [hnone]
  destroyed _ _ h := by cases h

theorem counted_of_run {workers outsiders : ℕ} {next : BitVec 64} {clock : TimePoint}
    {ls : List AsyncStep} (hworkers : 0 < workers)
    (hok : Admissible step (fun s l => s.tidy l = true) (init workers outsiders next clock) ls)
    (hrun : run step (init workers outsiders next clock) ls = some s) : s.Single ∧ s.Counted := by
  refine hok.invariant (P := fun s => s.Single ∧ s.Counted) ?_
    ⟨single_init hworkers next clock, counted_init _ _ _ _⟩ hrun
  rintro s l s' ⟨hk, hc⟩ hl hs
  exact ⟨hk.step hs (sound_of_tidy hc hl), hc.step hk hl hs⟩

/-- The coroutine of state `k` has not started, and was never scheduled. -/
def NeverStarted (s : AsyncScheduler) (k : ℕ) (c : CoroutineState) : Prop :=
  (∃ f, s.memory c.address = some f ∧ f.state = k ∧ f.point = .initialSuspend) ∧
    s.handleRefs c.address = none

/-- A tidy step destroys only frames of coroutines that have finished, and whose handles are in no
queue and in no hands. -/
theorem Single.destroyed_finished (hk : s.Single) (hok : s.tidy l = true)
    (hs : s.step l = some s') {k : ℕ} {c c' : CoroutineState} (hck : s.states[k]? = some c)
    (hck' : s'.states[k]? = some c') (hne : c'.destroyed ≠ c.destroyed) :
    c.completed = true ∧ c.address ∉ s.queued ∧ c.address ∉ s.held := by
  rcases (step_cases hs).keeps hk with hkeeps | ⟨a, -, rfl⟩ |
    ⟨t, h, requests, f, rfl, hx, hrefs, hf, hstates, -⟩
  · obtain ⟨c₀, hc₀, -, hdestroyed, -⟩ := hkeeps.states k c' hck'
    obtain rfl := Option.some.inj (hck.symm.trans hc₀)
    exact absurd hdestroyed hne
  · simp only [AsyncScheduler.create] at hck'
    rw [List.getElem?_append_left (List.getElem?_eq_some_iff.1 hck).1, hck] at hck'
    exact absurd (Option.some.inj hck' ▸ rfl) hne
  · have hcompleted := completed_of_tidy hok hx hrefs hf
    by_cases he : f.state = k
    · subst he
      obtain ⟨c₀, hc₀, rfl⟩ := hk.address h f hf
      obtain rfl := Option.some.inj (hck.symm.trans hc₀)
      have hzero := hk.count_eq_zero_of_completed hf hcompleted
      rw [← count_unfinished_places] at hzero
      refine ⟨by simpa [completed, hck] using hcompleted, ?_, ?_⟩ <;>
      · refine List.count_eq_zero.1 ?_
        omega
    · rw [hstates, List.getElem?_modify_ne _ _ he, hck] at hck'
      exact absurd (Option.some.inj hck' ▸ rfl) hne

/-- In every run of tidy steps nothing is used that is not there, and of every coroutine: its frame is
destroyed at most once; when it is, the coroutine has finished and its handle is in no queue and in no
hands; and once no object owns it, it has finished or never started and no request for it is left,
the frame was destroyed and an entry at its address is that of another coroutine. -/
theorem destroyed_once {workers outsiders : ℕ} {next : BitVec 64} {clock : TimePoint}
    {ls : List AsyncStep} {s : AsyncScheduler} (hworkers : 0 < workers)
    (hok : Admissible step (fun s l => s.tidy l = true) (init workers outsiders next clock) ls)
    (hrun : run step (init workers outsiders next clock) ls = some s) :
    s.faulted = false ∧ ∀ (k : ℕ) (c : CoroutineState), s.states[k]? = some c →
      c.destroyed ≤ 1 ∧
      (∀ l s' c', s.tidy l = true → s.step l = some s' → s'.states[k]? = some c' →
        c'.destroyed ≠ c.destroyed →
        c.completed = true ∧ c.address ∉ s.queued ∧ c.address ∉ s.held) ∧
      ((∀ a : Async, some a ∈ s.objects → a.state ≠ some k) →
        (c.completed = true ∨ s.NeverStarted k c) → c.address ∉ s.pending →
        c.destroyed = 1 ∧ (s.handleRefs c.address ≠ none →
          ∃ f, s.memory c.address = some f ∧ f.state ≠ k)) := by
  obtain ⟨hk, hc⟩ := counted_of_run hworkers hok hrun
  refine ⟨hk.faulted, fun k c hck => ⟨?_, ?_, ?_⟩⟩
  · rcases hc.destroyed k c hck with ⟨h, -⟩ | ⟨h, -⟩ <;> omega
  · intro l s' c' hl hs hck' hne
    exact hk.destroyed_finished hl hs hck hck' hne
  · intro hgone hend hnone
    rcases hc.destroyed k c hck with ⟨-, f, hf, rfl⟩ | ⟨hone, -, hne⟩
    · rcases hend with hcompleted | ⟨-, hrefs⟩
      · refine absurd (hc.requested _ f hf ?_) hnone
        simpa [completed, hck] using hcompleted
      · obtain ⟨-, -, howned⟩ := hc.unscheduled _ f hf hrefs
        exact absurd rfl (hgone _ howned)
    · refine ⟨hone, fun hrefs => ?_⟩
      obtain ⟨f, hf⟩ := Option.ne_none_iff_exists'.1 (hk.entries _ hrefs)
      exact ⟨f, hf, hne f hf⟩

/-- A detached coroutine runs to its end and is destroyed, and its address is used again. -/
def detachedAndReused : List AsyncStep :=
  List.flatten [[.call 1 (.create 1), .call 1 (.detach 0)], advances 1 3,
    advances 0 6, [.call 0 .ret], advances 0 12,
    [.call 1 (.create 1), .call 1 (.detach 1)], advances 1 3]

theorem destroyed_once_detached :
    ∃ s c, run step (init 1 1 0 0) detachedAndReused = some s ∧ s.states[0]? = some c ∧
      c.destroyed = 1 ∧ (s.handleRefs c.address ≠ none →
        ∃ f, s.memory c.address = some f ∧ f.state ≠ 0) := by
  obtain ⟨s, hs, hend⟩ := Option.map_eq_some_iff.1 (show
    (run step (init 1 1 0 0) detachedAndReused).map
      (fun s => (s.states[0]?, s.objects, s.pending)) =
      some (some ⟨true, none, false, 1, 1⟩, [some ⟨none, none⟩, some ⟨none, none⟩], []) by
    decide +kernel)
  simp only [Prod.mk.injEq] at hend
  obtain ⟨hc, hobjects, hpending⟩ := hend
  refine ⟨s, _, hs, hc, ((destroyed_once (by decide) (by decide +kernel) hs).2 0 _ hc).2.2 ?_ ?_ ?_⟩
  · intro a ha
    rw [hobjects] at ha
    simp at ha
    simp [ha]
  · exact .inl rfl
  · rw [hpending]
    exact List.not_mem_nil

/-- An object is dropped before its coroutine is scheduled; its request finds no entry. -/
def droppedBeforeStart : List AsyncStep :=
  List.flatten [[.call 1 (.create 1), .call 1 (.drop 0)], advances 0 10]

theorem never_destroyed :
    ∃ s c, run step (init 1 1 0 0) droppedBeforeStart = some s ∧ s.states[0]? = some c ∧
      (∀ a : Async, some a ∈ s.objects → a.state ≠ some 0) ∧ s.NeverStarted 0 c ∧
      s.pending = [] ∧ c.destroyed = 0 := by
  obtain ⟨s, hs, hend⟩ := Option.map_eq_some_iff.1 (show
    (run step (init 1 1 0 0) droppedBeforeStart).map
      (fun s => (s.states[0]?, s.objects, s.pending)) =
      some (some ⟨false, none, false, 1, 0⟩, [none], []) by decide +kernel)
  have hframe : (run step (init 1 1 0 0) droppedBeforeStart).map
      (fun s => (s.memory 1, s.handleRefs 1)) = some (some ⟨.initialSuspend, 0⟩, none) := by
    decide +kernel
  simp only [hs, Option.map_some, Option.some.injEq, Prod.mk.injEq] at hend hframe
  obtain ⟨hc, hobjects, hpending⟩ := hend
  obtain ⟨hmemory, hrefs⟩ := hframe
  refine ⟨s, _, hs, hc, fun a ha => ?_, ⟨⟨_, hmemory, rfl, rfl⟩, hrefs⟩, hpending, rfl⟩
  simp [hobjects] at ha

end AsyncScheduler

end EllohimMQ
