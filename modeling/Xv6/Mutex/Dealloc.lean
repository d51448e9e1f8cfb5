import Xv6.Mutex.Semaphore

/-! After a deallocation the identifier is dead: no `lock` call on it succeeds
or writes the table. This needs two conditions that `mutex.c` does not check,
and the run `wokenAfterDealloc` shows what happens without the first. -/
namespace Xv6.Mutex
open Function Transition

/-- The identifier whose `kthread_mutex_lock` call the step advances. -/
def lockCall (s : State) : Act → Option Int
  | .lock _ id => some id
  | .sleep t =>
    match s.pc t with
    | .sleepEnter id _ => some id
    | _ => none
  | .retry t =>
    match s.pc t with
    | .woken id _ => some id
    | _ => none
  | _ => none

def Deallocated (history : List Event) (id : Int) : Prop :=
  ∃ t, .dealloc t id 0 ∈ history

def LockRefused (id : Int) (s next : State) : Prop :=
  next.mutex = s.mutex ∧
    (next.history = s.history ∨ ∃ t, next.history = s.history ++ [.lock t id (-1)])

def DeadIdsRefused (s : State) (a : Act) (next : State) : Prop :=
  ∀ id, lockCall s a = some id → Deallocated s.history id → LockRefused id s next

/-- `dealloc` meets no waiter, and `unlock` is not called with 0, the
identifier that every `FREE` slot carries. -/
def DeallocSafe (s : State) (a : Act) : Prop :=
  NoWaiterAtDealloc s a ∧ ∀ t, a ≠ .unlock t 0

structure DeallocInv (s : State) : Prop where
  inv : Inv s
  zero_free : ∀ i, (s.mutex i).mxid = 0 → (s.mutex i).state = .free
  dead : ∀ id, Deallocated s.history id →
    id < s.nextmxid ∧ ∀ i, (s.mutex i).mxid = id → id = 0

variable {id : Int}

theorem deallocated_concat {history : List Event} {event : Event}
    (h : Deallocated (history ++ [event]) id) :
    Deallocated history id ∨ ∃ t, event = .dealloc t id 0 := by
  obtain ⟨t, ht⟩ := h
  rcases List.mem_append.mp ht with hold | hnew
  · exact Or.inl ⟨t, hold⟩
  · exact Or.inr ⟨t, (List.mem_singleton.mp hnew).symm⟩

theorem deallocated_before {history : List Event} {event : Event}
    (h : Deallocated (history ++ [event]) id) (hne : ∀ t, event ≠ .dealloc t id 0) :
    Deallocated history id :=
  (deallocated_concat h).resolve_right fun ⟨t, ht⟩ => hne t ht

theorem deallocInv_mxinit : DeallocInv mxinit where
  inv := inv_mxinit
  zero_free := by simp [mxinit]
  dead := by simp [mxinit, Deallocated]

variable {s : State}

section

variable (hs : DeallocInv s)
include hs

theorem DeallocInv.of_table_eq {next : State} (hinv : Inv next)
    (hmutex : next.mutex = s.mutex) (hnext : next.nextmxid = s.nextmxid)
    (hdead : ∀ id, Deallocated next.history id → Deallocated s.history id) :
    DeallocInv next where
  inv := hinv
  zero_free := by
    rw [hmutex]
    exact hs.zero_free
  dead := by
    rw [hmutex, hnext]
    exact fun id h => hs.dead id (hdead id h)

theorem DeallocInv.refused {event : Event}
    (hinv : Inv (s.ret event)) (hne : ∀ t id, event ≠ .dealloc t id 0) :
    DeallocInv (s.ret event) :=
  hs.of_table_eq hinv rfl rfl fun id h => deallocated_before h fun t => hne t id

theorem DeallocInv.store {next : State} (hinv : Inv next) {i : Slot}
    {mx : KthreadMutex} (hmutex : next.mutex = update s.mutex i mx)
    (hzero : mx.mxid = 0 → mx.state = .free)
    (hdead : ∀ id, Deallocated next.history id →
      id < next.nextmxid ∧ (mx.mxid = id → id = 0) ∧
        ∀ j, j ≠ i → (s.mutex j).mxid = id → id = 0) : DeallocInv next where
  inv := hinv
  zero_free := by
    intro j hj
    rw [hmutex] at hj ⊢
    by_cases hji : j = i
    · subst hji
      simp only [update_self] at hj ⊢
      exact hzero hj
    · simp only [update_of_ne hji] at hj ⊢
      exact hs.zero_free j hj
  dead := by
    intro id h
    obtain ⟨hlt, hself, hother⟩ := hdead id h
    refine ⟨hlt, ?_⟩
    intro j hj
    rw [hmutex] at hj
    by_cases hji : j = i
    · subst hji
      simp only [update_self] at hj
      exact hself hj
    · simp only [update_of_ne hji] at hj
      exact hother j hji hj

theorem deallocInv_alloc (t : Tid) :
    DeallocInv (kthreadMutexAlloc s t) := by
  have hinv := inv_alloc hs.inv t
  have hpos := hs.inv.next_pos
  revert hinv
  unfold kthreadMutexAlloc
  split <;> intro hinv
  · exact hs.refused hinv (by simp)
  · refine hs.store hinv rfl ?_ ?_
    · intro h
      simp only at h
      omega
    · intro id h
      obtain ⟨hlt, hslots⟩ := hs.dead id (deallocated_before h (by simp))
      refine ⟨?_, ?_, fun j _ hj => hslots j hj⟩
      · simp only [State.ret]
        omega
      · intro hid
        simp only at hid
        omega

theorem deallocInv_dealloc (t : Tid) (id : Int)
    (hguard : s.deallocates id → ∀ u i, ¬ (s.pc u).waitsOn id i) :
    DeallocInv (kthreadMutexDealloc s t id) := by
  have hinv := inv_dealloc hs.inv t id hguard
  revert hinv
  unfold kthreadMutexDealloc
  split
  · intro hinv
    exact hs.refused hinv (by simp)
  · rename_i i hfind
    have hid := findId_some hfind
    split <;> intro hinv
    · exact hs.refused hinv (by simp)
    · refine hs.store hinv rfl (fun _ => rfl) ?_
      intro k h
      rcases deallocated_concat h with hold | ⟨_, hnew⟩
      · obtain ⟨hlt, hslots⟩ := hs.dead k hold
        exact ⟨hlt, fun h0 => h0.symm, fun j _ hj => hslots j hj⟩
      · cases hnew
        refine ⟨hid ▸ (hs.inv.id_range i).2, fun h0 => h0.symm, ?_⟩
        -- another slot with the identifier would be the same slot
        intro j hji hj
        by_contra h0
        exact hji (hs.inv.unique j i (hj.trans hid.symm) (hj ▸ h0))

theorem deallocInv_lockTurn (t : Tid) {i : Slot}
    (hid : (s.mutex i).mxid = id) (hfree : (s.mutex i).state ≠ .free) :
    DeallocInv (lockTurn s t id i) := by
  have hinv := inv_lockTurn hs.inv t hid hfree
  revert hinv
  unfold lockTurn
  split <;> intro hinv
  · exact hs.of_table_eq hinv rfl rfl fun _ h => h
  · refine hs.store hinv rfl (fun h0 => absurd (hs.zero_free i h0) hfree) ?_
    intro k h
    obtain ⟨hlt, hslots⟩ := hs.dead k (deallocated_before h (by simp))
    exact ⟨hlt, fun h => hslots i h, fun j _ hj => hslots j hj⟩

theorem deallocInv_unlock (t : Tid) (h0 : id ≠ 0) :
    DeallocInv (kthreadMutexUnlock s t id) := by
  have hinv := inv_unlock hs.inv t id
  revert hinv
  unfold kthreadMutexUnlock
  split
  · intro hinv
    exact hs.refused hinv (by simp)
  · rename_i i hfind
    have hid := findId_some hfind
    split <;> intro hinv
    · exact hs.refused hinv (by simp)
    · refine hs.store hinv rfl (fun h => absurd (hid.symm.trans h) h0) ?_
      intro k h
      obtain ⟨hlt, hslots⟩ := hs.dead k (deallocated_before h (by simp))
      exact ⟨hlt, fun h => hslots i h, fun j _ hj => hslots j hj⟩

theorem deallocInv_step {next : State} {a : Act}
    (hguard : DeallocSafe s a) (hstep : step s a = some next) : DeallocInv next := by
  have hinv := inv_step hs.inv hguard.1 hstep
  cases step_cases hstep with
  | alloc t hready => exact deallocInv_alloc hs t
  | dealloc t id hready => exact deallocInv_dealloc hs t id (hguard.1 t id rfl)
  | lock t id hready =>
    revert hinv
    unfold kthreadMutexLock
    split
    · intro hinv
      exact hs.refused hinv (by simp)
    · rename_i i hfind
      split <;> intro hinv
      · exact hs.of_table_eq hinv rfl rfl fun _ h => h
      · rename_i hfree
        exact deallocInv_lockTurn hs t (findId_some hfind) hfree
  | unlock t id hready =>
    have h0 : id ≠ 0 := fun h => hguard.2 t (h ▸ rfl)
    exact deallocInv_unlock hs t h0
  | sleep t id i hpc => exact hs.of_table_eq hinv rfl rfl fun _ h => h
  | retry t id i hpc hlock =>
    have hold := hs.inv.waiting t id i (Or.inr (Or.inr hpc))
    exact deallocInv_lockTurn hs t hold.1 hold.2
  | wakeup t id i hpc => exact hs.of_table_eq hinv rfl rfl fun _ h => h

theorem DeallocInv.no_waiter {t : Tid} {i : Slot}
    (hdead : Deallocated s.history id) : ¬ (s.pc t).waitsOn id i := by
  intro hwait
  obtain ⟨hid, hfree⟩ := hs.inv.waiting t id i hwait
  have h0 := (hs.dead id hdead).2 i hid
  exact hfree (hs.zero_free i (hid.trans h0))

theorem DeallocInv.refuses {next : State} {a : Act}
    (hstep : step s a = some next) : DeadIdsRefused s a next := by
  intro id hcall hdead
  cases step_cases hstep with
  | alloc t hready | dealloc t k hready | unlock t k hready | wakeup t k i hpc => cases hcall
  | lock t k hready =>
    cases hcall
    unfold kthreadMutexLock
    split
    · exact ⟨rfl, Or.inr ⟨t, rfl⟩⟩
    · rename_i i hfind
      -- only the identifier 0 of the FREE slots is found, and that panics
      have hid := findId_some hfind
      have h0 := (hs.dead id hdead).2 i hid
      rw [if_pos (hs.zero_free i (hid.trans h0))]
      exact ⟨rfl, Or.inl rfl⟩
  | sleep t k i hpc =>
    simp only [lockCall, hpc, Option.some.injEq] at hcall
    subst hcall
    exact absurd (Or.inl hpc) (hs.no_waiter hdead)
  | retry t k i hpc hlock =>
    simp only [lockCall, hpc, Option.some.injEq] at hcall
    subst hcall
    exact absurd (Or.inr (Or.inr hpc)) (hs.no_waiter hdead)

end

/-- No lock after dealloc: along every run in which `dealloc` meets no waiter
and `unlock` is never called with 0, a `lock` call on an identifier that
`dealloc` has returned 0 for writes no slot and does not return 0. -/
theorem no_lock_after_dealloc {acts : List Act} (hmeets : Meets step DeallocSafe mxinit acts) :
    Along step DeadIdsRefused mxinit acts :=
  along_of_invariant
    (fun _ _ _ hs hguard hstep => ⟨deallocInv_step hs hguard hstep, hs.refuses hstep⟩)
    deallocInv_mxinit hmeets

/-- A mutex that is deallocated while nobody waits, and a later `lock` on it. -/
def lockAfterDealloc : List Act :=
  [.alloc 0, .dealloc 0 1, .lock 1 1]

theorem no_lock_after_dealloc_refused :
    (run step mxinit lockAfterDealloc).map (fun s => s.history) =
        some [.alloc 0 1, .dealloc 0 1 0, .lock 1 1 (-1)] ∧
      Along step DeadIdsRefused mxinit lockAfterDealloc := by
  refine ⟨by decide, no_lock_after_dealloc ?_⟩
  have hfirst : step mxinit (.alloc 0) = some (kthreadMutexAlloc mxinit 0) := rfl
  refine ⟨⟨by simp [NoWaiterAtDealloc], by simp⟩, fun next h => ?_⟩
  obtain rfl : kthreadMutexAlloc mxinit 0 = next := Option.some.inj (hfirst.symm.trans h)
  refine ⟨⟨?_, by simp⟩, fun next _ => ⟨⟨?_, by simp⟩, fun _ _ => trivial⟩⟩
  · intro t id _ _ u i hwait
    have hidle : (kthreadMutexAlloc mxinit 0).pc u = .idle := rfl
    simp [hidle, Pc.waitsOn] at hwait
  · simp [NoWaiterAtDealloc]

/-- The second thread waits; the mutex is unlocked and deallocated before the
woken thread runs again. -/
def wokenAfterDealloc : List Act :=
  [.alloc 0, .lock 0 1, .lock 1 1, .sleep 1, .unlock 0 1, .wakeup 0, .dealloc 0 1]

/-- The woken `lock(1)` returns 0 after `dealloc(1)` returned 0, and takes a
slot that is `FREE`. -/
theorem lock_succeeds_after_dealloc :
    ¬ Along step DeadIdsRefused mxinit (wokenAfterDealloc ++ [.retry 1]) := by
  intro hclaim
  obtain ⟨mid, hmid⟩ := Option.isSome_iff_exists.mp
    (show (run step mxinit wokenAfterDealloc).isSome by decide)
  have hfacts : (run step mxinit wokenAfterDealloc).map (fun s =>
      (lockCall s (.retry 1), decide (Event.dealloc 0 1 0 ∈ s.history), (s.mutex 0).state,
        (step s (.retry 1)).map fun next => (next.mutex 0).state)) =
        some (some 1, true, .free, some .locked) := by decide
  simp only [hmid, Option.map_some, Option.some.injEq, Prod.mk.injEq, decide_eq_true_eq] at hfacts
  obtain ⟨hcall, hdead, hfree, hlocked⟩ := hfacts
  obtain ⟨next, hnext, hstate⟩ := Option.map_eq_some_iff.mp hlocked
  have hrefused := hclaim.last hmid hnext 1 hcall ⟨0, hdead⟩
  rw [hrefused.1, hfree] at hstate
  cases hstate

end Xv6.Mutex
