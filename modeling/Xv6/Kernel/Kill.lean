import Xv6.Kernel.Steps
import Xv6.Lib.Slots

/-! `kill`. The call finds a live process by its pid and stores the flag, and that is all
it does: the lines that would wake the process are commented out in `proc.c`, so a thread
that is asleep when its process is killed stays asleep. -/
namespace Xv6.Kernel
open Function (update update_self update_of_ne)
open Transition

variable {n : Nat} {s s' : State n} {c : Fin n} {cmd : Cmd} {x : Slot} {stack : Nat}

structure SamePids (s s' : State n) : Prop where
  pid : ∀ p, (s'.proc p).pid = (s.proc p).pid
  nextpid : s'.nextpid = s.nextpid

theorem SamePids.of_eq (hproc : s'.proc = s.proc) (hnext : s'.nextpid = s.nextpid) :
    SamePids s s' :=
  ⟨fun p => by rw [hproc], hnext⟩

variable {p : Fin nproc}

theorem SamePids.of_update {proc : Proc}
    (hproc : s'.proc = update s.proc p proc) (hpid : proc.pid = (s.proc p).pid)
    (hnext : s'.nextpid = s.nextpid) : SamePids s s' := by
  refine ⟨fun q => ?_, hnext⟩
  rw [hproc]
  exact field_update Proc.pid hpid q

inductive Numbers (s s' : State n) : Prop
  | same (h : SamePids s s')
  | alloc (p : Fin nproc) (proc : Proc) (hproc : s'.proc = update s.proc p proc)
      (hpid : proc.pid = s.nextpid) (hnext : s'.nextpid = s.nextpid + 1)
  | reap (p : Fin nproc) (proc : Proc) (hproc : s'.proc = update s.proc p proc)
      (hpid : proc.pid = 0) (hstate : proc.state = .unused) (hnext : s'.nextpid = s.nextpid)

theorem samePids_kthreadExitEnd : SamePids s (kthreadExitEnd s c x stack) := by
  simp only [kthreadExitEnd, enterExit]
  split
  · split <;> exact .of_eq rfl rfl
  · exact .of_eq rfl rfl

theorem samePids_stackFailed {y : Slot} {caller : Caller} :
    SamePids s (stackFailed s c x stack y caller) := by
  cases caller
  · exact .of_eq rfl rfl
  · exact .of_update rfl rfl rfl

theorem numbers_step {a : Act n} (hstep : step s a = some s') : Numbers s s' := by
  cases effect_step hstep with
  | moves x stack pc pc' _ hcpu hkept => exact .same ⟨hkept.pid, hkept.nextpid⟩
  | allocproc x stack p => exact .alloc _ _ rfl rfl rfl
  | waitReap x stack pc q => exact .reap _ _ rfl rfl rfl rfl
  | exit x stack =>
    exact .same ⟨fun p => (exit_proc s _ x stack p).2.1, exit_nextpid s _ x stack⟩
  | kthreadExitEnd x stack => exact .same samePids_kthreadExitEnd
  | stackFailed x stack y caller => exact .same samePids_stackFailed
  | allocAbandoned | forkFailed | forkDone => exact .same (.of_update rfl rfl rfl)
  | _ => exact .same (.of_eq rfl rfl)

structure Numbered (s : State n) : Prop where
  positive : 1 ≤ s.nextpid
  below : ∀ p, (s.proc p).pid < s.nextpid
  distinct : ∀ p q, (s.proc p).pid = (s.proc q).pid → (s.proc p).pid ≠ 0 → p = q

theorem numbered_boot (n page : Nat) : Numbered (boot n page) := by
  refine ⟨by simp [boot], fun p => ?_, fun p q => ?_⟩
  · simp only [boot]
    split <;> decide
  · simp only [boot]
    split <;> split <;> simp_all

theorem Numbered.store (h : Numbered s) {proc : Proc}
    (hproc : s'.proc = update s.proc p proc) (hnext : s.nextpid ≤ s'.nextpid)
    (hbelow : proc.pid < s'.nextpid)
    (hnew : proc.pid ≠ 0 → ∀ q, (s.proc q).pid ≠ proc.pid) : Numbered s' := by
  have hpos := h.positive
  refine ⟨by omega, fun q => ?_, fun q r hqr hzero => ?_⟩
  · rw [hproc]
    by_cases hq : q = p
    · rwa [hq, update_self]
    · rw [update_of_ne hq]
      have := h.below q
      omega
  · rw [hproc] at hqr hzero
    exact Slots.distinct_update h.distinct (fun hid q _ => hnew hid q) hqr hzero

theorem numbered_step {a : Act n} (h : Numbered s) (hstep : step s a = some s') :
    Numbered s' := by
  have hpos := h.positive
  cases numbers_step hstep with
  | same hsame =>
    refine ⟨by rw [hsame.nextpid]; exact hpos, fun p => ?_, fun p q => ?_⟩
    · rw [hsame.pid, hsame.nextpid]
      exact h.below p
    · rw [hsame.pid, hsame.pid]
      exact h.distinct p q
  | alloc p proc hproc hpid hnext =>
    refine h.store hproc (by omega) (by omega) fun _ q hq => ?_
    have := h.below q
    omega
  | reap p proc hproc hpid hstate hnext =>
    exact h.store hproc (by omega) (by omega) fun hzero => absurd hpid hzero

theorem numbered_run {page : Nat} {labels : List (Act n)}
    (hrun : run step (boot n page) labels = some s) : Numbered s := by
  have hmeets : Meets step (fun _ _ => True) (boot n page) labels :=
    meets_of_forall (fun _ _ _ => trivial) _
  exact run_invariant (fun _ _ _ h _ hstep => numbered_step h hstep) (numbered_boot n page)
    hmeets hrun

theorem kill_eq (h : Numbered s) (hpid : (s.proc p).pid ≠ 0) :
    kill s (s.proc p).pid = s.setProc p { s.proc p with killed := true } := by
  have hfind : ((List.finRange nproc).find? fun q => (s.proc q).pid = (s.proc p).pid) = some p := by
    cases hfound : (List.finRange nproc).find? fun q => (s.proc q).pid = (s.proc p).pid with
    | none =>
      simpa using List.find?_eq_none.mp hfound p (List.mem_finRange p)
    | some q =>
      have hq : (s.proc q).pid = (s.proc p).pid := by simpa using List.find?_some hfound
      rw [h.distinct q p hq (by rwa [hq])]
  rw [kill, hfind]

/-- What `kill` is for: the flag is set, every sleeper of the process has become
`RUNNABLE`, and the others are left alone. -/
structure Reached (s after : State n) (p : Fin nproc) : Prop where
  killed : (after.proc p).killed = true
  awake : ∀ i, (after.thread (p, i)).state ≠ .sleeping
  woken : ∀ i, (s.thread (p, i)).state = .sleeping →
    (after.thread (p, i)).state = .runnable
  procs : ∀ q, q ≠ p → after.proc q = s.proc q
  threads : ∀ y, y.1 ≠ p → after.thread y = s.thread y

/-- In every reachable table `kill` reaches a process exactly when none of its threads is
asleep: it stores the flag, and changes no other process and no thread. -/
theorem kill_reaches {page : Nat} {labels : List (Act n)}
    (hrun : run step (boot n page) labels = some s) {p : Fin nproc}
    (hpid : (s.proc p).pid ≠ 0) :
    Reached s (kill s (s.proc p).pid) p ↔ ∀ i, (s.thread (p, i)).state ≠ .sleeping := by
  rw [kill_eq (numbered_run hrun) hpid]
  constructor
  · exact fun h => h.awake
  · intro hawake
    refine ⟨?_, hawake, fun i hi => absurd hi (hawake i), fun q hq => ?_, fun _ _ => rfl⟩
    · simp [State.setProc]
    · exact update_of_ne hq ..

/-- `init` makes a process, which waits for input. -/
def childSleeps : List (Act 1) :=
  on onlyCpu [.go, .pick (proc0, thread0), .call .fork, .go, .go, .go, .go, .kalloc 2,
    .copyuvm true, .go, .ret, .tick, .go, .pick (proc1, thread0), .call .other, .sleep 100, .go,
    .pick (proc0, thread0), .call .other]

theorem kill_reaches_init : ∃ s, run step (boot 1 1) childSleeps = some s ∧ (s.proc proc0).pid ≠ 0 ∧
      (∀ i, (s.thread (proc0, i)).state ≠ .sleeping) ∧
      Reached s (kill s (s.proc proc0).pid) proc0 := by
  obtain ⟨s, hrun, hpid, hawake⟩ : ∃ s, run step (boot 1 1) childSleeps = some s ∧
      (s.proc proc0).pid ≠ 0 ∧ ∀ i, (s.thread (proc0, i)).state ≠ .sleeping := by
    decide +kernel
  exact ⟨s, hrun, hpid, hawake, (kill_reaches hrun hpid).mpr hawake⟩

/-- After `kill` of the waiting process its flag is set and its thread is still asleep. -/
theorem kill_leaves_asleep :
    ∃ s, run step (boot 1 1) childSleeps = some s ∧ s.pstate proc1 = .runnable ∧
      (s.proc proc1).pid = 2 ∧ ((kill s 2).proc proc1).killed = true ∧
      ((kill s 2).thread (proc1, thread0)).state = .sleeping := by
  decide +kernel

end Xv6.Kernel
