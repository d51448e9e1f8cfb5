import Mathlib.Data.List.FinRange
import Xv6.Lib.Transition

/-! The kernel mutexes of `mutex.c`. Each section under `mxtable.lock` is one
step. A call of `kthread_mutex_lock` that finds the mutex taken goes through
`sleep`: it keeps `mxtable.lock` until it has `ptable.lock`, is then `SLEEPING`
on the slot, and after a `wakeup` it takes `mxtable.lock` again and retries. -/
namespace Xv6.Mutex
open Transition
open Function (update)

abbrev maxMutexes : Nat := 64

inductive MxState where
  | free
  | locked
  | unlocked
deriving DecidableEq, Repr

abbrev Tid := Nat
abbrev Slot := Fin maxMutexes

structure KthreadMutex where
  state : MxState
  mxid : Int
  owner : Option Tid
deriving DecidableEq, Repr

inductive Pc where
  | idle
  /-- In `lock`: the exchange returned `LOCKED`, `mxtable.lock` is still held. -/
  | sleepEnter (id : Int) (slot : Slot)
  /-- In `lock`: `SLEEPING` on the slot. -/
  | sleeping (id : Int) (slot : Slot)
  /-- In `lock`: made `RUNNABLE` by a wakeup, before the next exchange. -/
  | woken (id : Int) (slot : Slot)
  /-- In `unlock`: `mxtable.lock` is released, `wakeup(mx)` not yet called. -/
  | waking (id : Int) (slot : Slot)
deriving DecidableEq, Repr

/-- The outcome of a call, recorded in its last section under `mxtable.lock`; of `alloc` the
identifier that it stores, or -1. What `alloc` returns is read from the slot after the
release, when another thread may have deallocated it again. -/
inductive Event where
  | alloc (t : Tid) (id : Int)
  | dealloc (t : Tid) (id : Int) (ret : Int)
  | lock (t : Tid) (id : Int) (ret : Int)
  | unlock (t : Tid) (id : Int) (ret : Int)
deriving DecidableEq, Repr

/-- `mxlock` is the thread that holds `mxtable.lock` between two steps.
`history` is not kernel data: it lists the outcomes, oldest first. -/
structure State where
  mutex : Slot → KthreadMutex
  nextmxid : Int
  mxlock : Option Tid
  pc : Tid → Pc
  panicked : Bool
  history : List Event

def mxinit : State where
  mutex := fun _ => ⟨.free, 0, none⟩
  nextmxid := 1
  mxlock := none
  pc := fun _ => .idle
  panicked := false
  history := []

def State.ret (s : State) (event : Event) : State :=
  { s with history := s.history ++ [event] }

def State.findId (s : State) (id : Int) : Option Slot :=
  (List.finRange maxMutexes).find? fun i => (s.mutex i).mxid = id

def State.findFree (s : State) : Option Slot :=
  (List.finRange maxMutexes).find? fun i => (s.mutex i).state = .free

def kthreadMutexAlloc (s : State) (t : Tid) : State :=
  match s.findFree with
  | none => s.ret (.alloc t (-1))
  | some i =>
    { s with
      mutex := update s.mutex i ⟨.unlocked, s.nextmxid, none⟩
      nextmxid := s.nextmxid + 1 }.ret (.alloc t s.nextmxid)

def kthreadMutexDealloc (s : State) (t : Tid) (id : Int) : State :=
  match s.findId id with
  | none => s.ret (.dealloc t id (-1))
  | some i =>
    if (s.mutex i).state = .locked then s.ret (.dealloc t id (-1))
    else
      { s with mutex := update s.mutex i ⟨.free, 0, none⟩ }.ret (.dealloc t id 0)

/-- One turn of `while(xchg(&mx->state, LOCKED) == LOCKED) sleep(mx, ..)`, with
the assignment of the owner and the return when the loop ends. -/
def lockTurn (s : State) (t : Tid) (id : Int) (i : Slot) : State :=
  if (s.mutex i).state = .locked then
    { s with mxlock := some t, pc := update s.pc t (.sleepEnter id i) }
  else
    { s with
      mutex := update s.mutex i ⟨.locked, (s.mutex i).mxid, some t⟩
      pc := update s.pc t .idle }.ret (.lock t id 0)

def kthreadMutexLock (s : State) (t : Tid) (id : Int) : State :=
  match s.findId id with
  | none => s.ret (.lock t id (-1))
  | some i =>
    -- panic("kthread_mutex_lock: trying to catch FREE mutex")
    if (s.mutex i).state = .free then { s with panicked := true }
    else lockTurn s t id i

def kthreadMutexUnlock (s : State) (t : Tid) (id : Int) : State :=
  match s.findId id with
  | none => s.ret (.unlock t id (-1))
  | some i =>
    if (s.mutex i).state = .unlocked then s.ret (.unlock t id (-1))
    else
      { s with
        mutex := update s.mutex i ⟨.unlocked, (s.mutex i).mxid, none⟩
        pc := update s.pc t (.waking id i) }.ret (.unlock t id 0)

/-- `sleep(mx, &mxtable.lock)` up to the switch: `ptable.lock` is taken before
`mxtable.lock` is released, so no wakeup falls between. -/
def sleep (s : State) (t : Tid) (id : Int) (i : Slot) : State :=
  { s with mxlock := none, pc := update s.pc t (.sleeping id i) }

def wakePc (i : Slot) : Pc → Pc
  | .sleeping id j => if j = i then .woken id j else .sleeping id j
  | pc => pc

def wakeup (s : State) (t : Tid) (i : Slot) : State :=
  { s with pc := update (fun u => wakePc i (s.pc u)) t .idle }

inductive Act where
  | alloc (t : Tid)
  | dealloc (t : Tid) (id : Int)
  | lock (t : Tid) (id : Int)
  | unlock (t : Tid) (id : Int)
  | sleep (t : Tid)
  | retry (t : Tid)
  | wakeup (t : Tid)
deriving DecidableEq, Repr

/-- A thread outside any call may start one while `mxtable.lock` is free. -/
def State.ready (s : State) (t : Tid) : Prop :=
  s.pc t = .idle ∧ s.mxlock = none

instance (s : State) (t : Tid) : Decidable (s.ready t) :=
  inferInstanceAs (Decidable (_ ∧ _))

def step (s : State) (a : Act) : Option State :=
  if s.panicked then none
  else match a with
    | .alloc t => if s.ready t then some (kthreadMutexAlloc s t) else none
    | .dealloc t id => if s.ready t then some (kthreadMutexDealloc s t id) else none
    | .lock t id => if s.ready t then some (kthreadMutexLock s t id) else none
    | .unlock t id => if s.ready t then some (kthreadMutexUnlock s t id) else none
    | .sleep t =>
      match s.pc t with
      | .sleepEnter id i => some (sleep s t id i)
      | _ => none
    | .retry t =>
      match s.pc t with
      | .woken id i => if s.mxlock = none then some (lockTurn s t id i) else none
      | _ => none
    | .wakeup t =>
      match s.pc t with
      | .waking _ i => some (wakeup s t i)
      | _ => none

inductive Step (s : State) : Act → State → Prop where
  | alloc (t : Tid) (hready : s.ready t) : Step s (.alloc t) (kthreadMutexAlloc s t)
  | dealloc (t : Tid) (id : Int) (hready : s.ready t) :
      Step s (.dealloc t id) (kthreadMutexDealloc s t id)
  | lock (t : Tid) (id : Int) (hready : s.ready t) :
      Step s (.lock t id) (kthreadMutexLock s t id)
  | unlock (t : Tid) (id : Int) (hready : s.ready t) :
      Step s (.unlock t id) (kthreadMutexUnlock s t id)
  | sleep (t : Tid) (id : Int) (i : Slot) (hpc : s.pc t = .sleepEnter id i) :
      Step s (.sleep t) (sleep s t id i)
  | retry (t : Tid) (id : Int) (i : Slot) (hpc : s.pc t = .woken id i)
      (hlock : s.mxlock = none) : Step s (.retry t) (lockTurn s t id i)
  | wakeup (t : Tid) (id : Int) (i : Slot) (hpc : s.pc t = .waking id i) :
      Step s (.wakeup t) (wakeup s t i)

theorem step_cases {s next : State} {a : Act} (h : step s a = some next) : Step s a next := by
  unfold step at h
  split at h
  · cases h
  · cases a with
    | alloc t =>
      obtain ⟨hready, rfl⟩ := taken h
      exact .alloc t hready
    | dealloc t id =>
      obtain ⟨hready, rfl⟩ := taken h
      exact .dealloc t id hready
    | lock t id =>
      obtain ⟨hready, rfl⟩ := taken h
      exact .lock t id hready
    | unlock t id =>
      obtain ⟨hready, rfl⟩ := taken h
      exact .unlock t id hready
    | sleep t =>
      simp only at h
      split at h
      · rename_i id i hpc
        cases h
        exact .sleep t id i hpc
      · cases h
    | retry t =>
      simp only at h
      split at h
      · rename_i id i hpc
        obtain ⟨hlock, rfl⟩ := taken h
        exact .retry t id i hpc hlock
      · cases h
    | wakeup t =>
      simp only at h
      split at h
      · rename_i id i hpc
        cases h
        exact .wakeup t id i hpc
      · cases h

/-- The thread is inside `kthread_mutex_lock(id)` and watches the slot. -/
def Pc.waitsOn (pc : Pc) (id : Int) (i : Slot) : Prop :=
  pc = .sleepEnter id i ∨ pc = .sleeping id i ∨ pc = .woken id i

theorem findId_some {s : State} {id : Int} {i : Slot} (h : s.findId id = some i) :
    (s.mutex i).mxid = id := by
  simpa using List.find?_some h

theorem findId_none {s : State} {id : Int} (h : s.findId id = none) (i : Slot) :
    (s.mutex i).mxid ≠ id := by
  simpa using List.find?_eq_none.mp h i (List.mem_finRange i)

theorem findFree_some {s : State} {i : Slot} (h : s.findFree = some i) :
    (s.mutex i).state = .free := by
  simpa using List.find?_some h

theorem waitsOn_wakePc {pc : Pc} {id : Int} {i j : Slot} (h : (wakePc j pc).waitsOn id i) :
    pc.waitsOn id i := by
  cases pc with
  | sleeping id' i' =>
    simp only [wakePc] at h
    split at h
    · simp only [Pc.waitsOn, reduceCtorEq, Pc.woken.injEq, false_or] at h
      simp [Pc.waitsOn, h]
    · exact h
  | _ => exact h

end Xv6.Mutex
