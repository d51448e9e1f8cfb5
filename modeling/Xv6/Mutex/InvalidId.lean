import Xv6.Mutex.Dealloc

/-! Calls with an identifier that names no mutex. The scans of `mutex.c` compare
identifiers and do not look at the state of the slot. An identifier other than 0 is
found exactly when it is allocated, in every reachable table, but 0 is found in the
slots that are not. -/
namespace Xv6.Mutex
open Function Transition

/-- The identifier was returned by `alloc` and has not been deallocated since. -/
def Live (history : List Event) (id : Int) : Prop :=
  Allocated history id ∧ id ≠ -1 ∧ ¬ Deallocated history id

/-- The slots that carry an identifier other than 0 are the live mutexes. -/
structure Named (s : State) : Prop where
  next_pos : 1 ≤ s.nextmxid
  free_id : ∀ i, (s.mutex i).state = .free → (s.mutex i).mxid = 0
  unique : ∀ i j, (s.mutex i).mxid = (s.mutex j).mxid → (s.mutex i).mxid ≠ 0 → i = j
  old : ∀ id, Allocated s.history id ∨ Deallocated s.history id → id < s.nextmxid
  nonzero : ¬ Allocated s.history 0
  found : ∀ id, id ≠ 0 → ((∃ i, (s.mutex i).mxid = id) ↔ Live s.history id)

theorem named_mxinit : Named mxinit where
  next_pos := le_rfl
  free_id := by simp [mxinit]
  unique := by simp [mxinit]
  old := by simp [mxinit, Allocated, Deallocated]
  nonzero := by simp [mxinit, Allocated]
  found := by
    intro id hid
    simp [mxinit, Live, Allocated, Ne.symm hid]

variable {history : List Event} {event : Event} {id : Int}

theorem allocated_concat :
    Allocated (history ++ [event]) id ↔ Allocated history id ∨ ∃ t, event = .alloc t id := by
  simp only [Allocated, List.mem_append, List.mem_singleton, exists_or, eq_comm]

theorem deallocated_concat_iff : Deallocated (history ++ [event]) id ↔
      Deallocated history id ∨ ∃ t, event = .dealloc t id 0 := by
  simp only [Deallocated, List.mem_append, List.mem_singleton, exists_or, eq_comm]

/-- The outcome neither gives nor takes an identifier. -/
def Event.neutral : Event → Prop
  | .alloc _ ret => ret = -1
  | .dealloc _ _ ret => ret ≠ 0
  | _ => True

theorem live_neutral (h : event.neutral) (id : Int) :
    Live (history ++ [event]) id ↔ Live history id := by
  have halloc : id ≠ -1 → ¬ ∃ t, event = .alloc t id := by
    rintro hid ⟨t, rfl⟩
    exact hid h
  have hdealloc : ¬ ∃ t, event = .dealloc t id 0 := by
    rintro ⟨t, rfl⟩
    exact h rfl
  simp only [Live, allocated_concat, deallocated_concat_iff, hdealloc, or_false]
  exact ⟨fun ⟨hor, hid, hlive⟩ => ⟨hor.resolve_right (halloc hid), hid, hlive⟩,
    fun ⟨hold, hid, hlive⟩ => ⟨Or.inl hold, hid, hlive⟩⟩

variable {s : State}

/-- A step that renames no slot, frees none and records at most a neutral outcome. -/
theorem Named.kept {next : State} (hs : Named s) (hnext : next.nextmxid = s.nextmxid)
    (hmxid : ∀ i, (next.mutex i).mxid = (s.mutex i).mxid)
    (hfree : ∀ i, (next.mutex i).state = .free → (s.mutex i).state = .free)
    (hhistory : next.history = s.history ∨
      ∃ event, event.neutral ∧ next.history = s.history ++ [event]) : Named next where
  next_pos := hnext ▸ hs.next_pos
  free_id := fun i h => (hmxid i).trans (hs.free_id i (hfree i h))
  unique := by
    intro i j
    rw [hmxid, hmxid]
    exact hs.unique i j
  old := by
    intro id h
    rw [hnext]
    rcases hhistory with heq | ⟨event, hneutral, heq⟩
    · rw [heq] at h
      exact hs.old id h
    · rw [heq, allocated_concat, deallocated_concat_iff] at h
      have hpos := hs.next_pos
      rcases h with (h | ⟨t, rfl⟩) | (h | ⟨t, rfl⟩)
      · exact hs.old id (Or.inl h)
      · have hid : id = -1 := hneutral
        omega
      · exact hs.old id (Or.inr h)
      · exact absurd rfl hneutral
  nonzero := by
    rcases hhistory with heq | ⟨event, hneutral, heq⟩
    · exact heq ▸ hs.nonzero
    · rw [heq, allocated_concat]
      rintro (h | ⟨t, rfl⟩)
      · exact hs.nonzero h
      · exact absurd hneutral (by simp [Event.neutral])
  found := by
    intro id hid
    simp only [hmxid]
    rcases hhistory with heq | ⟨event, hneutral, heq⟩
    · rw [heq]
      exact hs.found id hid
    · rw [heq, live_neutral hneutral]
      exact hs.found id hid

theorem Named.refused (hs : Named s) (h : event.neutral) :
    Named (s.ret event) :=
  hs.kept rfl (fun _ => rfl) (fun _ hfree => hfree) (Or.inr ⟨event, h, rfl⟩)

variable {i : Slot} {mx : KthreadMutex}

theorem Named.setState {next : State} (hs : Named s)
    (hnext : next.nextmxid = s.nextmxid) (hmutex : next.mutex = update s.mutex i mx)
    (hmxid : mx.mxid = (s.mutex i).mxid) (hfree : mx.state ≠ .free) (event : Event)
    (hneutral : event.neutral) (hhistory : next.history = s.history ++ [event]) : Named next := by
  refine hs.kept hnext (fun j => ?_) (fun j h => ?_) (Or.inr ⟨event, hneutral, hhistory⟩)
  · rw [hmutex]
    by_cases hji : j = i
    · rw [hji, update_self, hmxid]
    · rw [update_of_ne hji]
  · rw [hmutex] at h
    by_cases hji : j = i
    · rw [hji, update_self] at h
      exact absurd h hfree
    · rwa [update_of_ne hji] at h

theorem exists_update {mutex : Slot → KthreadMutex} :
    (∃ j, (update mutex i mx j).mxid = id) ↔
      mx.mxid = id ∨ ∃ j, j ≠ i ∧ (mutex j).mxid = id := by
  constructor
  · rintro ⟨j, hj⟩
    by_cases hji : j = i
    · rw [hji, update_self] at hj
      exact Or.inl hj
    · rw [update_of_ne hji] at hj
      exact Or.inr ⟨j, hji, hj⟩
  · rintro (h | ⟨j, hji, hj⟩)
    · exact ⟨i, by rwa [update_self]⟩
    · exact ⟨j, by rwa [update_of_ne hji]⟩

theorem Named.rename {next : State} (hs : Named s)
    (hmutex : next.mutex = update s.mutex i mx)
    (hpos : 1 ≤ next.nextmxid) (hfree : mx.state = .free → mx.mxid = 0)
    (hother : mx.mxid ≠ 0 → ∀ j, (s.mutex j).mxid ≠ mx.mxid)
    (hold : ∀ id, Allocated next.history id ∨ Deallocated next.history id → id < next.nextmxid)
    (hnonzero : ¬ Allocated next.history 0)
    (hlive : ∀ id, id ≠ 0 →
      (Live next.history id ↔ mx.mxid = id ∨ ∃ j, j ≠ i ∧ (s.mutex j).mxid = id)) :
    Named next where
  next_pos := hpos
  free_id := by
    intro j h
    rw [hmutex] at h ⊢
    by_cases hji : j = i
    · rw [hji, update_self] at h ⊢
      exact hfree h
    · rw [update_of_ne hji] at h ⊢
      exact hs.free_id j h
  unique := by
    intro j k hjk hzero
    rw [hmutex] at hjk hzero
    exact Slots.distinct_update hs.unique (fun hid j _ => hother hid j) hjk hzero
  old := hold
  nonzero := hnonzero
  found := by
    intro id hid
    rw [hmutex, exists_update, hlive id hid]

theorem named_alloc (hs : Named s) (t : Tid) : Named (kthreadMutexAlloc s t) := by
  unfold kthreadMutexAlloc
  split
  · exact hs.refused rfl
  rename_i i hfind
  have hzero := hs.free_id i (findFree_some hfind)
  have hpos := hs.next_pos
  have hnew : ¬ (Allocated s.history s.nextmxid ∨ Deallocated s.history s.nextmxid) :=
    fun h => lt_irrefl _ (hs.old _ h)
  refine hs.rename rfl (by simp only [State.ret]; omega) (fun h => by cases h) ?_ ?_ ?_ ?_
  · intro _ j hj
    exact hnew (Or.inl ((hs.found s.nextmxid (by omega)).mp ⟨j, hj⟩).1)
  · intro id h
    simp only [State.ret, allocated_concat, deallocated_concat_iff] at h ⊢
    rcases h with (h | ⟨u, heq⟩) | (h | ⟨u, heq⟩)
    · exact (hs.old id (Or.inl h)).trans (Int.lt_succ _)
    · cases heq
      exact Int.lt_succ _
    · exact (hs.old id (Or.inr h)).trans (Int.lt_succ _)
    · cases heq
  · simp only [State.ret, allocated_concat, Event.alloc.injEq]
    rintro (h | ⟨u, -, heq⟩)
    · exact hs.nonzero h
    · omega
  · intro id hid
    have hothers : (∃ j, j ≠ i ∧ (s.mutex j).mxid = id) ↔ Live s.history id := by
      rw [← hs.found id hid]
      constructor
      · rintro ⟨j, -, hj⟩
        exact ⟨j, hj⟩
      · rintro ⟨j, hj⟩
        refine ⟨j, ?_, hj⟩
        rintro rfl
        exact hid (hj.symm.trans hzero)
    rw [hothers]
    simp only [State.ret, Live, allocated_concat, deallocated_concat_iff, reduceCtorEq,
      exists_false, or_false, Event.alloc.injEq]
    constructor
    · rintro ⟨h | ⟨u, -, heq⟩, hid, hdead⟩
      · exact Or.inr ⟨h, hid, hdead⟩
      · exact Or.inl heq
    · rintro (rfl | ⟨h, hid, hdead⟩)
      · exact ⟨Or.inr ⟨t, rfl, rfl⟩, by omega, fun h => hnew (Or.inr h)⟩
      · exact ⟨Or.inl h, hid, hdead⟩

theorem named_dealloc (hs : Named s) (t : Tid) (id : Int) :
    Named (kthreadMutexDealloc s t id) := by
  unfold kthreadMutexDealloc
  split
  · exact hs.refused (by simp [Event.neutral])
  rename_i i hfind
  have hid := findId_some hfind
  split
  · exact hs.refused (by simp [Event.neutral])
  have hpos := hs.next_pos
  have hbelow : id < s.nextmxid := by
    by_cases hzero : id = 0
    · omega
    · exact hs.old id (Or.inl ((hs.found id hzero).mp ⟨i, hid⟩).1)
  refine hs.rename rfl hpos (fun _ => rfl) (fun h => absurd rfl h) ?_ ?_ ?_
  · intro k h
    simp only [State.ret, allocated_concat, deallocated_concat_iff] at h ⊢
    rcases h with (h | ⟨u, heq⟩) | (h | ⟨u, heq⟩)
    · exact hs.old k (Or.inl h)
    · cases heq
    · exact hs.old k (Or.inr h)
    · cases heq
      exact hbelow
  · simp only [State.ret, allocated_concat, reduceCtorEq, exists_false, or_false]
    exact hs.nonzero
  · intro k hk
    have hothers : (∃ j, j ≠ i ∧ (s.mutex j).mxid = k) ↔ Live s.history k ∧ k ≠ id := by
      rw [← hs.found k hk]
      constructor
      · rintro ⟨j, hji, hj⟩
        refine ⟨⟨j, hj⟩, fun hkid => hji ?_⟩
        exact hs.unique j i (by rw [hj, hid, hkid]) (by rwa [hj])
      · rintro ⟨⟨j, hj⟩, hkid⟩
        refine ⟨j, ?_, hj⟩
        rintro rfl
        exact hkid (hj.symm.trans hid)
    rw [hothers]
    simp only [State.ret, Live, allocated_concat, deallocated_concat_iff, reduceCtorEq,
      exists_false, or_false, Event.dealloc.injEq, and_true, not_or, not_exists]
    constructor
    · rintro ⟨h, hne, hdead, hother⟩
      exact Or.inr ⟨⟨h, hne, hdead⟩, fun hkid => hother t ⟨rfl, hkid.symm⟩⟩
    · rintro (hzero | ⟨⟨h, hne, hdead⟩, hkid⟩)
      · exact absurd hzero.symm hk
      · exact ⟨h, hne, hdead, fun u heq => hkid heq.2.symm⟩

theorem named_lockTurn (hs : Named s) (t : Tid) (id : Int) (i : Slot) :
    Named (lockTurn s t id i) := by
  unfold lockTurn
  split
  · exact hs.kept rfl (fun _ => rfl) (fun _ h => h) (Or.inl rfl)
  · exact hs.setState rfl rfl rfl (by simp) (.lock t id 0) trivial rfl

theorem named_step {next : State} {a : Act} (hs : Named s) (hstep : step s a = some next) :
    Named next := by
  cases step_cases hstep with
  | alloc t hready => exact named_alloc hs t
  | dealloc t id hready => exact named_dealloc hs t id
  | lock t id hready =>
    unfold kthreadMutexLock
    split
    · exact hs.refused trivial
    · split
      · exact hs.kept rfl (fun _ => rfl) (fun _ h => h) (Or.inl rfl)
      · exact named_lockTurn hs t id _
  | unlock t id hready =>
    unfold kthreadMutexUnlock
    split
    · exact hs.refused trivial
    · split
      · exact hs.refused trivial
      · exact hs.setState rfl rfl rfl (by simp) (.unlock t id 0) trivial rfl
  | sleep t id i hpc => exact hs.kept rfl (fun _ => rfl) (fun _ h => h) (Or.inl rfl)
  | retry t id i hpc hlock => exact named_lockTurn hs t id i
  | wakeup t id i hpc => exact hs.kept rfl (fun _ => rfl) (fun _ h => h) (Or.inl rfl)

theorem named_run {acts : List Act} (hrun : run step mxinit acts = some s) :
    Named s := by
  have hmeets : Meets step (fun _ _ => True) mxinit acts :=
    meets_of_forall (fun _ _ _ => trivial) mxinit
  exact run_invariant (fun _ _ _ hs _ hstep => named_step hs hstep) named_mxinit hmeets hrun

def Rejected (s : State) (t : Tid) (id : Int) : Prop :=
  kthreadMutexLock s t id = s.ret (.lock t id (-1)) ∧
    kthreadMutexUnlock s t id = s.ret (.unlock t id (-1)) ∧
    kthreadMutexDealloc s t id = s.ret (.dealloc t id (-1))

theorem rejected_of_findId (h : s.findId id = none) (t : Tid) :
    Rejected s t id := by
  simp only [Rejected, kthreadMutexLock, kthreadMutexUnlock, kthreadMutexDealloc, h, and_self]

theorem findId_of_mxid (hs : Named s) (hid : id ≠ 0)
    (h : (s.mutex i).mxid = id) : s.findId id = some i := by
  cases hfind : s.findId id with
  | none => exact absurd h (findId_none hfind i)
  | some j =>
    have hj := findId_some hfind
    rw [hs.unique j i (hj.trans h.symm) (by rwa [hj])]

theorem findId_of_rejected {t : Tid} (h : Rejected s t id) :
    s.findId id = none := by
  cases hfind : s.findId id with
  | none => rfl
  | some i =>
    have hlock := congrArg State.history h.1
    simp only [kthreadMutexLock, lockTurn, hfind] at hlock
    split at hlock
    · simp [State.ret] at hlock
    · split at hlock <;> simp [State.ret] at hlock

/-- In every reachable table the three calls reject an identifier of no live mutex exactly
when it is not 0, or when every slot is allocated. For a live mutex `unlock` returns 0
when the slot is `LOCKED`, and -1 otherwise. -/
theorem invalid_ids_rejected {acts : List Act} {s : State}
    (hrun : run step mxinit acts = some s) (t : Tid) (id : Int) :
    (¬ Live s.history id →
        (Rejected s t id ↔ id ≠ 0 ∨ ∀ i, (s.mutex i).mxid ≠ 0)) ∧
      (Live s.history id → ∃ i, (s.mutex i).mxid = id ∧
        (kthreadMutexUnlock s t id).history =
          s.history ++ [.unlock t id (if (s.mutex i).state = .locked then 0 else -1)]) := by
  have hs := named_run hrun
  constructor
  · intro hdead
    constructor
    · intro hrejected
      have hfind := findId_of_rejected hrejected
      by_cases hzero : id = 0
      · exact Or.inr fun i => hzero ▸ findId_none hfind i
      · exact Or.inl hzero
    · intro hvalid
      apply rejected_of_findId
      cases hfind : s.findId id with
      | none => rfl
      | some i =>
        have hid := findId_some hfind
        have hnonzero : id ≠ 0 := hvalid.elim (fun hne => hne) fun hfull => hid ▸ hfull i
        exact absurd ((hs.found id hnonzero).mp ⟨i, hid⟩) hdead
  · intro hlive
    have hzero : id ≠ 0 := by
      rintro rfl
      exact hs.nonzero hlive.1
    obtain ⟨i, hi⟩ := (hs.found id hzero).mpr hlive
    refine ⟨i, hi, ?_⟩
    rw [kthreadMutexUnlock, findId_of_mxid hs hzero hi]
    cases hstate : (s.mutex i).state with
    | free => exact absurd (hi.symm.trans (hs.free_id i hstate)) hzero
    | locked | unlocked => simp [hstate, State.ret]

/-- After one `alloc` the identifier 7 is rejected, and `unlock(1)` returns -1. -/
theorem invalid_ids_rejected_one_mutex :
    (¬ Live (kthreadMutexAlloc mxinit 0).history 7 ∧ Rejected (kthreadMutexAlloc mxinit 0) 2 7) ∧
      Live (kthreadMutexAlloc mxinit 0).history 1 ∧
      ∃ i, ((kthreadMutexAlloc mxinit 0).mutex i).mxid = 1 ∧
        (kthreadMutexUnlock (kthreadMutexAlloc mxinit 0) 2 1).history =
          (kthreadMutexAlloc mxinit 0).history ++
            [.unlock 2 1 (if ((kthreadMutexAlloc mxinit 0).mutex i).state = .locked then 0 else
            -1)] := by
  have hrun : run step mxinit [.alloc 0] = some (kthreadMutexAlloc mxinit 0) := rfl
  have hhistory : (kthreadMutexAlloc mxinit 0).history = [.alloc 0 1] := by decide
  have hdead : ¬ Live (kthreadMutexAlloc mxinit 0).history 7 := by
    simp [hhistory, Live, Allocated]
  have hlive : Live (kthreadMutexAlloc mxinit 0).history 1 := by
    simp [hhistory, Live, Allocated, Deallocated]
  exact ⟨⟨hdead, ((invalid_ids_rejected hrun 2 7).1 hdead).mpr (Or.inl (by decide))⟩, hlive,
    (invalid_ids_rejected hrun 2 1).2 hlive⟩

/-- In the initial table 0 names no mutex, yet `lock(0)` panics, and `unlock(0)` and
`dealloc(0)` return 0; `unlock(0)` takes the first slot out of the free ones. -/
theorem zero_not_rejected : run step mxinit [] = some mxinit ∧ ¬ Live mxinit.history 0 ∧
      (kthreadMutexLock mxinit 0 0).panicked = true ∧
      (kthreadMutexUnlock mxinit 0 0).history = [.unlock 0 0 0] ∧
      (mxinit.mutex 0).state = .free ∧
      ((kthreadMutexUnlock mxinit 0 0).mutex 0).state = .unlocked ∧
      (kthreadMutexDealloc mxinit 0 0).history = [.dealloc 0 0 0] := by
  refine ⟨rfl, ?_, by decide, by decide, by decide, by decide, by decide⟩
  simp [mxinit, Live, Allocated]

end Xv6.Mutex
