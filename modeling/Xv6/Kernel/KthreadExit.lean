import Mathlib.Data.List.Range
import Xv6.Basic

/-! `kthread_exit` and `wakeup2` on the words of `ptable`. The loop of `wakeup2` starts
at the threads of the process but counts to `NPROC`, so it runs over the rest of the
process and over the processes behind it. Addresses are counted in words of four bytes
from the start of `ptable`, and every access to a thread is recorded. -/
namespace Xv6.KthreadExit
open Function

abbrev Word := UInt32

/-- `struct spinlock`: `locked`, `name`, `cpu` and ten words of `pcs`. -/
def spinlockWords : Nat := 13

/-- `struct thread`: `kstack`, `state`, `tid`, `tproc`, `tf`, `context`, `chan`, `killed`
and four words of `name`. -/
def threadWords : Nat := 12

def stateField : Nat := 1

def chanField : Nat := 6

/-- Before `pthreads` in `struct proc`: six words from `sz` to `killed`, `ofile`, `cwd` and
four words of `name`. -/
def pthreadsField : Nat := 27

def procWords : Nat := pthreadsField + nthread * threadWords + spinlockWords + 1

/-- `&ptable.proc[p].pthreads[k]`, also for a `k` outside the array. -/
def entry (p k : Nat) : Nat :=
  spinlockWords + p * procWords + pthreadsField + k * threadWords

def stateOf (p k : Nat) : Nat := entry p k + stateField

def chanOf (p k : Nat) : Nat := entry p k + chanField

def word : ProcState → Word
  | .unused => 0
  | .embryo => 1
  | .sleeping => 2
  | .runnable => 3
  | .running => 4
  | .zombie => 5

/-- The words, and the addresses that were read or written in threads. -/
structure Memory where
  word : Nat → Word
  touched : List Nat

def Memory.touch (m : Memory) (a : Nat) : Memory :=
  { m with touched := a :: m.touched }

def Memory.store (m : Memory) (a : Nat) (value : Word) : Memory :=
  { word := update m.word a value, touched := a :: m.touched }

/-- The loop that counts the threads that are neither `UNUSED` nor `ZOMBIE`. -/
def countLoop (p : Nat) : List Nat → Memory → Nat × Memory
  | [], m => (0, m)
  | k :: rest, m =>
    let counted := countLoop p rest (m.touch (stateOf p k))
    if m.word (stateOf p k) ≠ word .unused ∧ m.word (stateOf p k) ≠ word .zombie then
      (counted.1 + 1, counted.2)
    else counted

def wakeupTurn (p : Nat) (chan : Word) (m : Memory) (k : Nat) : Memory :=
  let tested := m.touch (stateOf p k)
  if m.word (stateOf p k) = word .sleeping then
    let compared := tested.touch (chanOf p k)
    if m.word (chanOf p k) = chan then compared.store (stateOf p k) (word .runnable)
    else compared
  else tested

/-- `for(t = proc->pthreads; t < &proc->pthreads[NPROC]; t++)`. -/
def wakeup2 (p : Nat) (chan : Word) (m : Memory) : Memory :=
  (List.range nproc).foldl (wakeupTurn p chan) m

/-- What `kthread_exit` has done when it calls `exit` or `sched`. -/
structure Outcome where
  memory : Memory
  exits : Bool

/-- The address of a thread as a pointer; `base` is the address of `ptable`. -/
def pointer (base : Word) (p : Fin nproc) (i : Fin nthread) : Word :=
  base + 4 * UInt32.ofNat (entry p i)

/-- `kthread_exit` of thread `i` of process `p`, up to the call of `exit` or `sched`. -/
def kthreadExit (base : Word) (p : Fin nproc) (i : Fin nthread) (words : Nat → Word) : Outcome :=
  let marked := Memory.store ⟨words, []⟩ (stateOf p i) (word .zombie)
  let counted := countLoop p (List.range nthread) marked
  { memory := wakeup2 p (pointer base p i) counted.2
    exits := counted.1 = 0 }

/-- The word is the state of an entry that sleeps on the channel. -/
def Wakes (p : Nat) (chan : Word) (words : Nat → Word) (ks : List Nat) (a : Nat) : Prop :=
  ∃ k ∈ ks, a = stateOf p k ∧ words a = word .sleeping ∧ words (chanOf p k) = chan

/-- The effect that `kthread_exit` is meant to have: it stays inside the threads of the
process, marks the caller, wakes those who sleep on it and calls `exit` when the caller
was the last one. -/
structure OwnProcessOnly (base : Word) (p : Fin nproc) (i : Fin nthread)
    (words : Nat → Word) : Prop where
  inside : ∀ a ∈ (kthreadExit base p i words).memory.touched,
    ∃ k, k < nthread ∧ entry p k ≤ a ∧ a < entry p k + threadWords
  marks : (kthreadExit base p i words).memory.word (stateOf p i) = word .zombie
  wakes : ∀ a, a ≠ stateOf p i → Wakes p (pointer base p i) words (List.range nthread) a →
    (kthreadExit base p i words).memory.word a = word .runnable
  keeps : ∀ a, a ≠ stateOf p i → ¬ Wakes p (pointer base p i) words (List.range nthread) a →
    (kthreadExit base p i words).memory.word a = words a
  exits : (kthreadExit base p i words).exits = true ↔
    ∀ k, k < nthread → k ≠ i → words (stateOf p k) = word .unused ∨
      words (stateOf p k) = word .zombie

variable {p : Nat} {chan : Word} {m : Memory} {a : Nat}

@[simp] theorem touch_word : (m.touch a).word = m.word := rfl

theorem countLoop_word (ks : List Nat) (m : Memory) : (countLoop p ks m).2.word = m.word := by
  induction ks generalizing m with
  | nil => rfl
  | cons k rest ih =>
    simp only [countLoop]
    split <;> rw [ih, touch_word]

theorem wakeupTurn_touched (k : Nat) :
    stateOf p k ∈ (wakeupTurn p chan m k).touched ∧
      ∀ b ∈ m.touched, b ∈ (wakeupTurn p chan m k).touched := by
  simp only [wakeupTurn]
  split
  · split <;> simp [Memory.touch, Memory.store] <;> tauto
  · simp only [Memory.touch, List.mem_cons, true_or, true_and]
    tauto

theorem wakeupLoop_touched (ks : List Nat) (m : Memory) :
    (∀ b ∈ m.touched, b ∈ (ks.foldl (wakeupTurn p chan) m).touched) ∧
      ∀ k ∈ ks, stateOf p k ∈ (ks.foldl (wakeupTurn p chan) m).touched := by
  induction ks generalizing m with
  | nil => simp
  | cons k rest ih =>
    obtain ⟨hstate, hold⟩ := @wakeupTurn_touched p chan m k
    obtain ⟨hkept, hrest⟩ := ih (wakeupTurn p chan m k)
    refine ⟨fun b hb => hkept b (hold b hb), ?_⟩
    simp only [List.forall_mem_cons, List.foldl_cons]
    exact ⟨hkept _ hstate, hrest⟩

theorem stateOf_ne_chanOf (k l : Nat) : chanOf p k ≠ stateOf p l := by
  simp only [chanOf, stateOf, entry, chanField, stateField, threadWords]
  omega

theorem wakeupTurn_word (k : Nat) :
    (wakeupTurn p chan m k).word =
      if m.word (stateOf p k) = word .sleeping ∧ m.word (chanOf p k) = chan then
        update m.word (stateOf p k) (word .runnable)
      else m.word := by
  simp only [wakeupTurn]
  split
  · rename_i hsleeping
    split
    · rename_i hchan
      rw [if_pos ⟨hsleeping, hchan⟩]
      rfl
    · rename_i hchan
      rw [if_neg fun h => hchan h.2]
      rfl
  · rename_i hawake
    rw [if_neg fun h => hawake h.1]
    rfl

theorem wakes_cons {words : Nat → Word} {k : Nat} {rest : List Nat} :
    Wakes p chan words (k :: rest) a ↔
      (a = stateOf p k ∧ words a = word .sleeping ∧ words (chanOf p k) = chan) ∨
        Wakes p chan words rest a := by
  simp only [Wakes, List.exists_mem_cons_iff]

theorem wakes_congr {words words' : Nat → Word} {ks : List Nat} (ha : words a = words' a)
    (hchan : ∀ k, words (chanOf p k) = words' (chanOf p k)) :
    Wakes p chan words ks a ↔ Wakes p chan words' ks a := by
  simp only [Wakes, ha, hchan]

open Classical in
theorem wakeupLoop_word (ks : List Nat) (m : Memory) (a : Nat) :
    (ks.foldl (wakeupTurn p chan) m).word a =
      if Wakes p chan m.word ks a then word .runnable else m.word a := by
  induction ks generalizing m with
  | nil => simp [Wakes]
  | cons k rest ih =>
    rw [List.foldl_cons, ih]
    by_cases hwake : m.word (stateOf p k) = word .sleeping ∧ m.word (chanOf p k) = chan
    · have hturn : (wakeupTurn p chan m k).word =
          update m.word (stateOf p k) (word .runnable) := by
        rw [wakeupTurn_word, if_pos hwake]
      by_cases ha : a = stateOf p k
      · -- the state just stored is not stored again
        have hawake : ¬ Wakes p chan (wakeupTurn p chan m k).word rest a := by
          rintro ⟨l, -, -, hsleeping, -⟩
          rw [hturn, ha, update_self] at hsleeping
          cases hsleeping
        rw [if_neg hawake, hturn, ha, update_self,
          if_pos (wakes_cons.mpr (Or.inl ⟨rfl, hwake⟩))]
      · have hword : (wakeupTurn p chan m k).word a = m.word a := by
          rw [hturn, update_of_ne ha]
        have hchan : ∀ l, (wakeupTurn p chan m k).word (chanOf p l) = m.word (chanOf p l) := by
          intro l
          rw [hturn, update_of_ne (stateOf_ne_chanOf l k)]
        simp only [wakes_congr hword hchan, hword, wakes_cons, ha, false_and, false_or]
    · have hturn : (wakeupTurn p chan m k).word = m.word := by
        rw [wakeupTurn_word, if_neg hwake]
      have hself : ¬ (a = stateOf p k ∧ m.word a = word .sleeping ∧
          m.word (chanOf p k) = chan) := by
        rintro ⟨rfl, h⟩
        exact hwake h
      simp only [hturn, wakes_cons, hself, false_or]

variable (base : Word) (q : Fin nproc) (i : Fin nthread) (words : Nat → Word)

open Classical in
/-- What `kthread_exit` stores: it marks the caller, and it wakes those of the 64 entries
from the first thread on that read as asleep on the caller. -/
theorem kthreadExit_word (a : Nat) :
    (kthreadExit base q i words).memory.word a =
      if a = stateOf q i then word .zombie
      else if Wakes q (pointer base q i) words (List.range nproc) a then word .runnable
      else words a := by
  simp only [kthreadExit, wakeup2, wakeupLoop_word, countLoop_word, Memory.store]
  by_cases ha : a = stateOf q i
  · have hawake : ¬ Wakes q (pointer base q i)
        (update words (stateOf q i) (word .zombie)) (List.range nproc) a := by
      rintro ⟨l, -, -, hsleeping, -⟩
      rw [ha, update_self] at hsleeping
      cases hsleeping
    rw [if_neg hawake, if_pos ha, ha, update_self]
  · have hword : update words (stateOf q i) (word .zombie) a = words a :=
      update_of_ne ha ..
    have hchan : ∀ k, update words (stateOf q i) (word .zombie) (chanOf q k) =
        words (chanOf q k) := fun k => update_of_ne (stateOf_ne_chanOf k i) ..
    simp only [wakes_congr hword hchan, hword, ha, if_false]

theorem outside_touched : stateOf q nthread ∈ (kthreadExit base q i words).memory.touched := by
  simp only [kthreadExit, wakeup2]
  exact (wakeupLoop_touched (List.range nproc) _).2 nthread (List.mem_range.mpr (by decide))

theorem outside_not_inside {k : Nat} (hk : k < nthread) :
    ¬ stateOf p nthread < entry p k + threadWords := by
  simp only [stateOf, entry, threadWords, stateField]
  omega

/-- For every table and every exiting thread, `kthread_exit` leaves the threads of its
process. -/
theorem kthread_exit_leaves_process (base : Word) (q : Fin nproc) (i : Fin nthread)
    (words : Nat → Word) : ¬ OwnProcessOnly base q i words := by
  intro h
  obtain ⟨k, hk, -, hlt⟩ := h.inside _ (outside_touched base q i words)
  exact outside_not_inside hk hlt

/-- A table in which two words of the files of the second process read like a thread
that sleeps on the first thread of the first process. -/
def lookalike (a : Nat) : Word :=
  if a = stateOf 0 18 then word .sleeping
  else if a = chanOf 0 18 then pointer 0 proc0 thread0
  else 0

/-- There the exit of that thread also overwrites one of the two words. -/
theorem kthread_exit_overwrites_files : ¬ OwnProcessOnly 0 proc0 thread0 lookalike ∧
      spinlockWords + procWords ≤ stateOf 0 18 ∧
      stateOf 0 18 < spinlockWords + procWords + pthreadsField ∧
      lookalike (stateOf 0 18) = word .sleeping ∧
      (kthreadExit 0 proc0 thread0 lookalike).memory.word (stateOf 0 18) = word .runnable := by
  refine ⟨?_, by decide, by decide, by decide, ?_⟩
  · intro h
    obtain ⟨k, hk, -, hlt⟩ := h.inside _ (outside_touched 0 proc0 thread0 lookalike)
    exact outside_not_inside hk hlt
  · have hwakes : Wakes proc0 (pointer 0 proc0 thread0) lookalike (List.range nproc)
        (stateOf 0 18) := ⟨18, by decide, by decide, by decide, by decide⟩
    rw [kthreadExit_word, if_neg (by decide), if_pos hwakes]

end Xv6.KthreadExit
