import Xv6.Lib.Alternation
import Xv6.Lib.Slots
import Xv6.Mutex.Table

/-! The table refines one binary semaphore for each identifier. The guard of
the runs is that no identifier is deallocated under a waiting `lock` call. -/
namespace Xv6.Mutex
open Function Transition Alternation

/-- What a successful call means to the semaphore with this identifier. -/
def Event.op (id : Int) : Event → Option Op
  | .lock _ id' ret => if id' = id ∧ ret = 0 then some .take else none
  | .unlock _ id' ret => if id' = id ∧ ret = 0 then some .give else none
  | _ => none

attribute [local simp] mxinit Event.op Pc.waitsOn

def calls (id : Int) (history : List Event) : List Op :=
  history.filterMap (Event.op id)

def Allocated (history : List Event) (id : Int) : Prop :=
  ∃ t, .alloc t id ∈ history

def State.deallocates (s : State) (id : Int) : Prop :=
  ∃ i, s.findId id = some i ∧ (s.mutex i).state ≠ .locked

/-- No identifier is deallocated while a `lock` call on it is in progress. -/
def NoWaiterAtDealloc (s : State) (a : Act) : Prop :=
  ∀ t id, a = .dealloc t id → s.deallocates id → ∀ u i, ¬ (s.pc u).waitsOn id i

theorem calls_concat (id : Int) (history : List Event) (event : Event) :
    calls id (history ++ [event]) = calls id history ++ (event.op id).toList := by
  simp only [calls, List.filterMap_append, List.filterMap_cons, List.filterMap_nil]
  cases event.op id <;> rfl

theorem calls_neutral {id : Int} {history : List Event} {event : Event}
    (h : event.op id = none) : calls id (history ++ [event]) = calls id history := by
  rw [calls_concat, h]
  exact List.append_nil _

structure Inv (s : State) : Prop where
  next_pos : 1 ≤ s.nextmxid
  free_id : ∀ i, (s.mutex i).state = .free → (s.mutex i).mxid = 0
  id_range : ∀ i, 0 ≤ (s.mutex i).mxid ∧ (s.mutex i).mxid < s.nextmxid
  unique : ∀ i j, (s.mutex i).mxid = (s.mutex j).mxid → (s.mutex i).mxid ≠ 0 → i = j
  waiting : ∀ t id i, (s.pc t).waitsOn id i →
    (s.mutex i).mxid = id ∧ (s.mutex i).state ≠ .free
  fresh : ∀ id, s.nextmxid ≤ id → calls id s.history = []
  alternates : ∀ id, 1 ≤ id → Alternates (calls id s.history)
  held : ∀ i, 1 ≤ (s.mutex i).mxid →
    ((s.mutex i).state = .locked ↔ (calls (s.mutex i).mxid s.history).length % 2 = 1)

theorem inv_mxinit : Inv mxinit where
  next_pos := le_rfl
  free_id := by simp
  id_range := by simp
  unique := by simp
  waiting := by simp
  fresh := by simp [calls]
  alternates := by
    intro id _
    exact alternates_nil
  held := by simp

variable {s : State}

theorem Inv.refused (hs : Inv s) {event : Event}
    (h : ∀ id, event.op id = none) : Inv (s.ret event) := by
  have hcalls : ∀ id, calls id (s.ret event).history = calls id s.history :=
    fun id => calls_neutral (h id)
  exact
    { next_pos := hs.next_pos
      free_id := hs.free_id
      id_range := hs.id_range
      unique := hs.unique
      waiting := hs.waiting
      fresh := fun id hid => (hcalls id).trans (hs.fresh id hid)
      alternates := fun id hid => by
        rw [hcalls id]
        exact hs.alternates id hid
      held := fun i hi => by
        rw [hcalls]
        exact hs.held i hi }

/-- One slot is overwritten and one outcome recorded. Every operation of the
table is an instance; the hypotheses are what it owes for its slot. -/
theorem Inv.store (hs : Inv s) (i : Slot) (mx : KthreadMutex) (next : Int)
    (lock : Option Tid) (pc : Tid → Pc) (event : Event) (hnext : s.nextmxid ≤ next)
    (hfree : mx.state = .free → mx.mxid = 0) (hrange : 0 ≤ mx.mxid ∧ mx.mxid < next)
    (hunique : mx.mxid ≠ 0 → ∀ j, j ≠ i → (s.mutex j).mxid ≠ mx.mxid)
    (hwait : ∀ t id j, (pc t).waitsOn id j →
      (s.pc t).waitsOn id j ∧ (j = i → mx.mxid = id ∧ mx.state ≠ .free))
    (hother : ∀ id, 1 ≤ id → id ≠ mx.mxid → event.op id = none)
    (hself : 1 ≤ mx.mxid → Alternates (calls mx.mxid (s.history ++ [event])) ∧
      (mx.state = .locked ↔ (calls mx.mxid (s.history ++ [event])).length % 2 = 1)) :
    Inv { s with
      mutex := update s.mutex i mx, nextmxid := next, mxlock := lock, pc := pc,
      history := s.history ++ [event] } := by
  have hpos := hs.next_pos
  refine ⟨by simp only; omega, ?_, ?_, ?_, ?_, ?_, ?_, ?_⟩
  · intro j hj
    by_cases hji : j = i
    · subst hji
      simp only [update_self] at hj ⊢
      exact hfree hj
    · simp only [update_of_ne hji] at hj ⊢
      exact hs.free_id j hj
  · intro j
    by_cases hji : j = i
    · subst hji
      simpa only [update_self] using hrange
    · simp only [update_of_ne hji]
      have := hs.id_range j
      omega
  · exact fun j k => Slots.distinct_update hs.unique hunique
  · intro t id j ht
    obtain ⟨hold, hslot⟩ := hwait t id j ht
    by_cases hji : j = i
    · subst hji
      simpa only [update_self] using hslot rfl
    · simpa only [update_of_ne hji] using hs.waiting t id j hold
  · intro id hid
    simp only at hid ⊢
    rw [calls_neutral (hother id (by omega) (by omega))]
    exact hs.fresh id (by omega)
  · intro id hid
    by_cases hmx : id = mx.mxid
    · subst hmx
      exact (hself hid).1
    · simp only
      rw [calls_neutral (hother id hid hmx)]
      exact hs.alternates id hid
  · intro j hj
    by_cases hji : j = i
    · subst hji
      simp only [update_self] at hj ⊢
      exact (hself hj).2
    · simp only [update_of_ne hji] at hj ⊢
      have hne : (s.mutex j).mxid ≠ mx.mxid := by
        intro heq
        exact hunique (by omega) j hji heq
      rw [calls_neutral (hother _ hj hne)]
      exact hs.held j hj

theorem Inv.change (hs : Inv s) {t : Tid} {i : Slot} {state : MxState} {lock owner : Option Tid}
    {pc : Pc} {event : Event} (op : Op) (hstate : state ≠ .free)
    (hpc : ∀ id j, ¬ pc.waitsOn id j)
    (hop : ∀ id, event.op id = if (s.mutex i).mxid = id then some op else none)
    (hself : 1 ≤ (s.mutex i).mxid → Alternates (calls (s.mutex i).mxid s.history ++ [op]) ∧
      (state = .locked ↔ (calls (s.mutex i).mxid s.history).length % 2 = 0)) :
    Inv { s with
      mutex := update s.mutex i ⟨state, (s.mutex i).mxid, owner⟩, mxlock := lock,
      pc := update s.pc t pc, history := s.history ++ [event] } := by
  refine hs.store i ⟨state, _, owner⟩ _ _ _ _ le_rfl (fun h => absurd h hstate) (hs.id_range i)
    ?_ ?_ ?_ ?_
  · intro h0 j hji heq
    exact hji (hs.unique j i heq (heq ▸ h0))
  · intro u k j hu
    by_cases hut : u = t
    · subst hut
      rw [update_self] at hu
      exact absurd hu (hpc k j)
    · rw [update_of_ne hut] at hu
      exact ⟨hu, fun hji => ⟨hji ▸ (hs.waiting u k j hu).1, hstate⟩⟩
  · intro k _ hk
    rw [hop]
    exact if_neg (Ne.symm hk)
  · intro hge
    obtain ⟨halternates, hlocked⟩ := hself hge
    rw [calls_concat, hop, if_pos rfl]
    refine ⟨halternates, hlocked.trans ?_⟩
    simp only [List.length_append, Option.toList_some, List.length_singleton]
    omega

theorem inv_alloc (hs : Inv s) (t : Tid) : Inv (kthreadMutexAlloc s t) := by
  unfold kthreadMutexAlloc
  split
  · exact hs.refused fun _ => rfl
  · rename_i i hfree
    have hpos := hs.next_pos
    have hcalls : calls s.nextmxid (s.history ++ [.alloc t s.nextmxid]) = [] :=
      (calls_neutral rfl).trans (hs.fresh _ le_rfl)
    refine hs.store i ⟨.unlocked, s.nextmxid, none⟩ (s.nextmxid + 1) _ _ _ ?_ ?_ ?_ ?_ ?_ ?_ ?_
    · omega
    · intro h
      cases h
    · exact ⟨by simp only; omega, by simp only; omega⟩
    · -- the new identifier is larger than every identifier in the table
      intro _ j _
      have := hs.id_range j
      simp only
      omega
    · intro u id j hu
      refine ⟨hu, fun hji => ?_⟩
      exact absurd (hji ▸ findFree_some hfree) (hs.waiting u id j hu).2
    · intro id _ _
      rfl
    · intro _
      simp only
      rw [hcalls]
      exact ⟨alternates_nil, by simp⟩

theorem inv_dealloc (hs : Inv s) (t : Tid) (id : Int)
    (hguard : s.deallocates id → ∀ u i, ¬ (s.pc u).waitsOn id i) :
    Inv (kthreadMutexDealloc s t id) := by
  unfold kthreadMutexDealloc
  split
  · exact hs.refused fun _ => rfl
  · rename_i i hfind
    split
    · exact hs.refused fun _ => rfl
    · rename_i hlocked
      have hpos := hs.next_pos
      refine hs.store i ⟨.free, 0, none⟩ _ _ _ _ le_rfl ?_ ?_ ?_ ?_ ?_ ?_
      · intro _
        rfl
      · exact ⟨le_rfl, by simp only; omega⟩
      · intro h
        exact absurd rfl h
      · intro u k j hu
        refine ⟨hu, fun hji => ?_⟩
        have hk : k = id := (hs.waiting u k j hu).1.symm.trans (hji ▸ findId_some hfind)
        exact absurd (hk ▸ hu) (hguard ⟨i, hfind, hlocked⟩ u j)
      · intro k _ _
        rfl
      · intro h
        simp at h

theorem inv_lockTurn (hs : Inv s) (t : Tid) {id : Int} {i : Slot}
    (hid : (s.mutex i).mxid = id) (hfree : (s.mutex i).state ≠ .free) :
    Inv (lockTurn s t id i) := by
  unfold lockTurn
  split
  · -- the exchange stored LOCKED over LOCKED
    refine { hs with waiting := ?_ }
    intro u k j hu
    by_cases hut : u = t
    · subst hut
      simp only [update_self, Pc.waitsOn, Pc.sleepEnter.injEq, reduceCtorEq, or_false] at hu
      obtain ⟨rfl, rfl⟩ := hu
      exact ⟨hid, hfree⟩
    · simp only [update_of_ne hut] at hu
      exact hs.waiting u k j hu
  · rename_i hlocked
    refine hs.change .take (by simp) (by simp) (fun k => by simp [hid]) fun hge => ?_
    have hheld := (hs.held i hge).not.mp hlocked
    exact ⟨alternates_take (hs.alternates _ hge) (by omega), iff_of_true rfl (by omega)⟩

theorem inv_lock (hs : Inv s) (t : Tid) (id : Int) :
    Inv (kthreadMutexLock s t id) := by
  unfold kthreadMutexLock
  split
  · exact hs.refused fun _ => by simp
  · rename_i i hfind
    split
    · exact { hs with }
    · rename_i hfree
      exact inv_lockTurn hs t (findId_some hfind) hfree

theorem inv_unlock (hs : Inv s) (t : Tid) (id : Int) :
    Inv (kthreadMutexUnlock s t id) := by
  unfold kthreadMutexUnlock
  split
  · exact hs.refused fun _ => by simp
  · rename_i i hfind
    split
    · exact hs.refused fun _ => by simp
    · rename_i hunlocked
      have hid := findId_some hfind
      refine hs.change .give (by simp) (by simp) (fun k => by simp [hid]) fun hge => ?_
      -- a slot with a real identifier is not FREE, so it was LOCKED
      have hlocked : (s.mutex i).state = .locked := by
        cases hstate : (s.mutex i).state with
        | free =>
          have := hs.free_id i hstate
          omega
        | locked => rfl
        | unlocked => exact absurd hstate hunlocked
      have hodd := (hs.held i hge).mp hlocked
      exact ⟨alternates_give (hs.alternates _ hge) hodd, iff_of_false (by simp) (by omega)⟩

theorem inv_step {next : State} {a : Act} (hs : Inv s) (hguard : NoWaiterAtDealloc s a)
    (hstep : step s a = some next) : Inv next := by
  cases step_cases hstep with
  | alloc t hready => exact inv_alloc hs t
  | dealloc t id hready => exact inv_dealloc hs t id (hguard t id rfl)
  | lock t id hready => exact inv_lock hs t id
  | unlock t id hready => exact inv_unlock hs t id
  | sleep t id i hpc =>
    refine { hs with waiting := ?_ }
    intro u k j hu
    by_cases hut : u = t
    · subst hut
      simp only [sleep, update_self, Pc.waitsOn, Pc.sleeping.injEq, reduceCtorEq,
        or_false, false_or] at hu
      obtain ⟨rfl, rfl⟩ := hu
      exact hs.waiting u id i (Or.inl hpc)
    · simp only [sleep, update_of_ne hut] at hu
      exact hs.waiting u k j hu
  | retry t id i hpc hlock =>
    have hold := hs.waiting t id i (Or.inr (Or.inr hpc))
    exact inv_lockTurn hs t hold.1 hold.2
  | wakeup t id i hpc =>
    refine { hs with waiting := ?_ }
    intro u k j hu
    by_cases hut : u = t
    · subst hut
      simp [wakeup] at hu
    · simp only [wakeup, update_of_ne hut] at hu
      exact hs.waiting u k j (waitsOn_wakePc hu)

/-- Kernel mutexes are binary semaphores. In every state of a run in which no
identifier is deallocated under a waiting `lock` call, slots that are not `FREE` have
distinct identifiers, the successful calls on each identifier alternate and begin with a
`lock`, and the slot is `LOCKED` exactly when the last one was a `lock`. -/
theorem mutex_binary_semaphore {acts : List Act} {s : State}
    (hmeets : Meets step NoWaiterAtDealloc mxinit acts) (hrun : run step mxinit acts = some s) :
    (∀ i j, (s.mutex i).state ≠ .free → (s.mutex j).state ≠ .free →
      1 ≤ (s.mutex i).mxid → (s.mutex i).mxid = (s.mutex j).mxid → i = j) ∧
    ∀ id, 1 ≤ id → Allocated s.history id →
      Alternates (calls id s.history) ∧
      ∀ i, (s.mutex i).mxid = id →
        ((s.mutex i).state = .locked ↔ (calls id s.history).length % 2 = 1) := by
  have hinv : Inv s := run_invariant (fun _ _ _ => inv_step) inv_mxinit hmeets hrun
  refine ⟨?_, ?_⟩
  · intro i j _ _ hpos heq
    exact hinv.unique i j heq (by omega)
  · intro id hpos _
    refine ⟨hinv.alternates id hpos, ?_⟩
    intro i hi
    subst hi
    exact hinv.held i hpos

/-- Two threads contend: the second sleeps, is woken by the unlock and takes
the mutex. -/
def contention : List Act :=
  [.alloc 0, .lock 0 1, .lock 1 1, .sleep 1, .unlock 0 1, .wakeup 0, .retry 1]

theorem mutex_binary_semaphore_contention :
    ∃ s, run step mxinit contention = some s ∧ (s.mutex 0).state = .locked ∧
      calls 1 s.history = [.take, .give, .take] ∧ Alternates (calls 1 s.history) := by
  obtain ⟨s, hs⟩ := Option.isSome_iff_exists.mp
    (show (run step mxinit contention).isSome by decide)
  have hfacts : (run step mxinit contention).map (fun s =>
      ((s.mutex 0).state, calls 1 s.history, decide (Event.alloc 0 1 ∈ s.history))) =
        some (.locked, [.take, .give, .take], true) := by decide
  simp only [hs, Option.map_some, Option.some.injEq, Prod.mk.injEq, decide_eq_true_eq] at hfacts
  obtain ⟨hstate, hcalls, halloc⟩ := hfacts
  have hmeets : Meets step NoWaiterAtDealloc mxinit contention := by
    refine meets_of_forall ?_ _
    intro a ha s t id h
    subst h
    simp [contention] at ha
  exact ⟨s, hs, hstate, hcalls, ((mutex_binary_semaphore hmeets hs).2 1 le_rfl ⟨0, halloc⟩).1⟩

end Xv6.Mutex
