import Xv6.Kernel.Steps

/-! A zombie process has no live thread, as long as `exit` runs while no other
CPU is inside the process. The condition is not met by `exit` itself: a sibling
that has passed the test in `trap` stores `RUNNABLE` over the `ZOMBIE`. -/
namespace Xv6.Kernel
open Transition

variable {n : Nat}

/-- The slot of a process from `exit` until it is allocated again. -/
structure Buried (s : State n) (p : Fin nproc) : Prop where
  threads : ∀ i, ProcState.dead (s.state (p, i))
  cpus : ∀ c x stack pc, s.cpu c = .run x stack pc → x.1 = p → pc = .exited ∧ s.ptlock = some c

/-- No thread of a dead process is alive or runs, except that the thread in
`exit` has not yet switched away; and `wait` never finds one. -/
structure ZombiesQuiet (s : State n) : Prop where
  buried : ∀ p, ProcState.dead (s.pstate p) → Buried s p
  wait : ∀ c x stack, s.cpu c ≠ .run x stack (.panic .waitAlive)

theorem Inv.zombiesQuiet {s : State n} (h : Inv s) : ZombiesQuiet s where
  buried := fun p hp => by
    refine ⟨fun i => ?_, fun c x stack pc hcpu hx => ?_⟩
    · by_contra hlive
      rcases h.lives (p, i) hlive with hrunnable | ⟨hembryo, -⟩
      · simp [hrunnable] at hp
      · simp [hembryo] at hp
    · rcases h.alive c x stack pc hcpu with hrunnable | ⟨-, hexited⟩
      · rw [hx] at hrunnable
        simp [hrunnable] at hp
      · subst hexited
        exact ⟨rfl, (h.table c).mpr (by rw [hcpu]; rfl)⟩
  wait := fun c x stack hcpu => (h.refs c x stack _ hcpu).near

theorem zombie_process_has_no_live_thread {page : Nat} {labels : List (Act n)} {final : State n}
    (hmeets : Meets step Calm (boot n page) labels)
    (hrun : run step (boot n page) labels = some final) : ZombiesQuiet final :=
  (run_invariant (fun _ _ _ h hcalm hstep => inv_step h hcalm hstep) (inv_boot n page) hmeets
    hrun).zombiesQuiet

/-- One thread is preempted, the other exits, `init` collects the process and
forks into its slot again. -/
def exitWhileAlone : List (Act 1) :=
  twoThreads onlyCpu ++ on onlyCpu [.tick, .go, .pick (proc1, thread1), .call .exit, .beginOp,
    .endOp, .exit, .go, .pick (proc0, thread0), .go, .ret, .call .fork, .go, .go, .go, .go,
    .kalloc 4, .copyuvm true, .go]

theorem zombie_process_has_no_live_thread_exit_while_alone :
    ∃ final, run step (boot 1 1) exitWhileAlone = some final ∧
      final.pstate proc1 = .runnable ∧ ZombiesQuiet final := by
  obtain ⟨final, hfinal, hstate⟩ : ∃ final, run step (boot 1 1) exitWhileAlone = some final ∧
      final.pstate proc1 = .runnable := by
    decide +kernel
  exact ⟨final, hfinal, hstate, zombie_process_has_no_live_thread (by decide +kernel) hfinal⟩

/-- The second thread runs on the other CPU and takes a timer interrupt, the
first one exits, and then the second one yields. -/
def exitBeforeYield : List (Act 2) :=
  twoThreads leftCpu ++ on rightCpu [.go, .pick (proc1, thread1), .tick] ++
    on leftCpu [.call .exit, .exit, .go, .go] ++
    on rightCpu [.go, .go]

theorem live_thread_in_zombie_process :
    ∃ s final, run step (boot 2 1) exitBeforeYield = some s ∧ s.pstate proc1 = .zombie ∧
      s.state (proc1, thread1) = .runnable ∧
      run step s (on leftCpu [.go, .pick (proc0, thread0), .go]) = some final ∧
      final.cpu leftCpu = .run (proc0, thread0) 1 (.panic .waitAlive) := by
  obtain ⟨s, hs, hzombie, hrunnable, final, hfinal, hcpu⟩ :
      ∃ s, run step (boot 2 1) exitBeforeYield = some s ∧ s.pstate proc1 = .zombie ∧
        s.state (proc1, thread1) = .runnable ∧
        ∃ final, run step s (on leftCpu [.go, .pick (proc0, thread0), .go]) = some final ∧
          final.cpu leftCpu = .run (proc0, thread0) 1 (.panic .waitAlive) := by
    decide +kernel
  exact ⟨s, final, hs, hzombie, hrunnable, hfinal, hcpu⟩

/-- No thread is on two CPUs, no two CPUs are inside `ptable.lock` or inside the lock of one
process, and what runs outside `ptable.lock` is `RUNNING`, or dead and inside `exit`. -/
structure Exclusive (s : State n) : Prop where
  thread : ∀ c c' x, (s.cpu c).thread = some x → (s.cpu c').thread = some x → c = c'
  table : ∀ c c', (s.cpu c).table = true → (s.cpu c').table = true → c = c'
  locks : ∀ c c' p, (s.cpu c).lock = some p → (s.cpu c').lock = some p → c = c'
  running : ∀ c x stack pc, s.cpu c = .run x stack pc → pc.table = false →
    s.state x = .running ∨ ProcState.dead (s.state x) ∧ pc.exits = true

theorem scheduler_exclusive {page : Nat} {labels : List (Act n)} {final : State n}
    (hmeets : Meets step Calm (boot n page) labels)
    (hrun : run step (boot n page) labels = some final) : Exclusive final := by
  have h := run_invariant (fun _ _ _ h hcalm hstep => inv_step h hcalm hstep) (inv_boot n page)
    hmeets hrun
  refine ⟨h.unique, fun _ _ => h.table.same, fun _ _ p => (h.locks p).same, ?_⟩
  intro c x stack pc hcpu hpc
  refine h.running c x stack pc hcpu ?_
  by_contra hsettled
  simp [not_settled_table (by simpa using hsettled)] at hpc

theorem scheduler_exclusive_two_cpus :
    ∃ final, run step (boot 2 1) (twoThreads leftCpu ++ on rightCpu [.go, .pick (proc1, thread1)]) =
      some final ∧ (final.cpu leftCpu).thread = some (proc1, thread0) ∧
      (final.cpu rightCpu).thread = some (proc1, thread1) ∧ Exclusive final := by
  obtain ⟨final, hfinal, hleft, hright⟩ : ∃ final, run step (boot 2 1) (twoThreads leftCpu ++
      on rightCpu [.go, .pick (proc1, thread1)]) = some final ∧
      (final.cpu leftCpu).thread = some (proc1, thread0) ∧
      (final.cpu rightCpu).thread = some (proc1, thread1) := by
    decide +kernel
  exact ⟨final, hfinal, hleft, hright, scheduler_exclusive (by decide +kernel) hfinal⟩

end Xv6.Kernel
