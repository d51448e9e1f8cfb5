import Xv6.Kernel.Steps

/-! `exec` in a process with several threads. `wait_before_exec` works when no
other thread of the process is left alive: it returns in its first scan. With a
live sibling it does not: the sibling that sees `executed` in `trap` calls `exit`,
which marks the caller of `exec` too. -/
namespace Xv6.Kernel
open Function (update update_self update_of_ne update_eq_self)
open Transition

variable {n : Nat} {s s' : State n} {c d : Fin n} {x w : Slot} {stack : Nat} {pc pc' : Pc}

/-! ### Threads of other processes -/

/-- The process whose table entries a position works on, apart from the
caller's own thread. -/
def Code.touches : Code → Option (Fin nproc)
  | .allocthread p _ => some p
  | .kalloc y _ | .created y | .copyuvm y | .copied y | .rejoin y _ => some y.1
  | _ => none

def Pc.touches : Pc → Option (Fin nproc)
  | .code k | .yielding k | .sleeping _ k => k.touches
  | .allocScan p _ _ => some p
  | .allocTid y _ _ => some y.1
  | .joinFound y _ | .joinUsed y _ | .joinLoop y _ | .joinSleep y _ | .joinReap y _ _ => some y.1
  | .execReap y _ _ | .execWake y _ => some y.1
  | _ => none

attribute [local simp] State.setCpu Pc.touches State.setThread Code.touches Resume.pc reap

theorem Moves.touches {p : Fin nproc} (h : Moves s w pc pc') (hw : w.1 ≠ p)
    (hpc : pc.touches ≠ some p) : pc'.touches ≠ some p := by
  cases h with
  | call syscall hsyscall => cases syscall <;> simp_all [Syscall.entry]
  | _ => simp_all

/-- Thread `x` is the only live thread of its process, and no other code in
progress works on the process. -/
structure Apart (s : State n) (x : Slot) : Prop where
  proc : s.pstate x.1 = .runnable
  dead : ∀ i, (x.1, i) ≠ x → ProcState.dead (s.state (x.1, i))
  kstack : ∀ i, (x.1, i) ≠ x → s.state (x.1, i) = .zombie → (s.thread (x.1, i)).kstack ≠ 0
  running : ∀ c w stack pc, s.cpu c = .run w stack pc → w ≠ x →
    w.1 ≠ x.1 ∧ pc.touches ≠ some x.1
  saved : ∀ w, w ≠ x → (s.thread w).context.resume.pc.touches ≠ some x.1

/-- What a step of a CPU that does not run `x` leaves. -/
structure Spared (s s' : State n) (d : Fin n) (x : Slot) : Prop where
  cpu : ∀ c, c ≠ d → s'.cpu c = s.cpu c
  pstate : s'.pstate x.1 = s.pstate x.1
  thread : ∀ i, s'.thread (x.1, i) = s.thread (x.1, i)
  here : ∀ w stack pc, s'.cpu d = .run w stack pc → w ≠ x ∧ w.1 ≠ x.1 ∧ pc.touches ≠ some x.1
  saved : ∀ w, w ≠ x → (s'.thread w).context.resume.pc.touches ≠ some x.1

theorem Apart.spared (h : Apart s x) (hcpu : ∀ c, c ≠ d → s'.cpu c = s.cpu c)
    (hpstate : s'.pstate x.1 = s.pstate x.1)
    (hthread : ∀ y : Slot, s'.thread y = s.thread y ∨ (y.1 ≠ x.1 ∧
      (s'.thread y).context.resume.pc.touches ≠ some x.1))
    (hhere : ∀ w stack pc, s'.cpu d = .run w stack pc →
      w ≠ x ∧ w.1 ≠ x.1 ∧ pc.touches ≠ some x.1) : Spared s s' d x where
  cpu := hcpu
  pstate := hpstate
  thread := fun i => (hthread (x.1, i)).resolve_right fun hne => hne.1 rfl
  here := hhere
  saved := by
    intro y hy
    rcases hthread y with hsame | ⟨-, haway⟩
    · rw [hsame]
      exact h.saved y hy
    · exact haway

/-- Nothing of the process is stored, and what is stored elsewhere works
elsewhere. -/
def Elsewhere (s s' : State n) (x : Slot) : Prop :=
  ∀ y : Slot, s'.thread y = s.thread y ∨
    (y.1 ≠ x.1 ∧ (s'.thread y).context.resume.pc.touches ≠ some x.1)

theorem elsewhere_of_eq (hthread : s'.thread = s.thread) : Elsewhere s s' x :=
  fun y => .inl (by rw [hthread])

theorem elsewhere_of_update {y : Slot} {t : Thread}
    (hthread : s'.thread = update s.thread y t) (hy : y.1 ≠ x.1)
    (ht : t.context.resume.pc.touches ≠ some x.1) : Elsewhere s s' x := by
  intro z
  rw [hthread]
  by_cases hz : z = y
  · subst hz
    exact .inr ⟨hy, by rwa [update_self]⟩
  · exact .inl (update_of_ne hz _ _)

theorem Apart.elsewhere (h : Apart s x)
    (hcontext : ∀ y, (s'.thread y).context = (s.thread y).context)
    (hown : ∀ i, s'.thread (x.1, i) = s.thread (x.1, i)) : Elsewhere s s' x := by
  intro y
  by_cases hy : y.1 = x.1
  · left
    have hslot : y = (x.1, y.2) := Prod.ext hy rfl
    rw [hslot]
    exact hown y.2
  · refine .inr ⟨hy, ?_⟩
    rw [hcontext]
    exact h.saved y fun hyx => hy (by rw [hyx])

theorem Apart.step (h : Apart s x) {v : Cpu} (hcpu : s'.cpu = update s.cpu d v)
    (hv : v.thread = none ∨ ∃ w stack pc, v = .run w stack pc ∧ w.1 ≠ x.1 ∧
      pc.touches ≠ some x.1)
    (hpstate : s'.pstate x.1 = s.pstate x.1) (hthread : Elsewhere s s' x) : Spared s s' d x := by
  refine h.spared (fun c hc => by rw [hcpu, update_of_ne hc]) hpstate hthread ?_
  intro w stack pc hrun
  rw [hcpu, update_self] at hrun
  subst hrun
  rcases hv with hnone | ⟨w', stack', pc', heq, hw, hpc⟩
  · cases hnone
  · cases heq
    exact ⟨fun hwx => hw (by rw [hwx]), hw, hpc⟩

theorem pstate_of_update {p : Fin nproc} {q : Proc}
    (hproc : s'.proc = update s.proc p q) (hp : p ≠ x.1) :
    s'.pstate x.1 = s.pstate x.1 := by
  simp only [State.pstate, hproc, update_of_ne (Ne.symm hp)]

theorem waitFrees_proc {q : Fin nproc} {y : Slot} (hy : y ∈ waitFrees s q) : y.1 = q := by
  have hthreads : y ∈ pthreads q := List.takeWhile_sublist _ |>.mem (List.mem_filter.mp hy).1
  obtain ⟨i, -, rfl⟩ := List.mem_map.mp hthreads
  rfl

theorem Apart.awake (h : Apart s x) (hx : s.state x ≠ .sleeping) (i : Fin nthread) :
    s.state (x.1, i) ≠ .sleeping := by
  intro hsleep
  by_cases hi : (x.1, i) = x
  · exact hx (hi ▸ hsleep)
  · have hdead := h.dead i hi
    rw [hsleep] at hdead
    exact absurd hdead (by decide)

theorem wakeup1_context (s : State n) (chan : Option Chan) (y : Slot) :
    ((wakeup1 s chan).thread y).context = (s.thread y).context := by
  simp only [wakeup1]
  split <;> rfl

theorem Apart.wakeup1 (h : Apart s x) (hx : s.state x ≠ .sleeping) (chan : Option Chan)
    (i : Fin nthread) : (wakeup1 s chan).thread (x.1, i) = s.thread (x.1, i) := by
  simp only [Kernel.wakeup1]
  exact if_neg fun hsleep => h.awake hx i hsleep.1

variable {cmd : Cmd}

section

variable (h : Apart s x) (hd : (s.cpu d).thread ≠ some x)
include h hd

theorem Apart.away (hcpu : s.cpu d = .run w stack pc) :
    w.1 ≠ x.1 ∧ pc.touches ≠ some x.1 :=
  h.running d w stack pc hcpu fun hw => hd (by rw [hcpu, hw]; rfl)

theorem Apart.goto (hcpu : s.cpu d = .run w stack pc)
    (hcpu' : s'.cpu = update s.cpu d (.run w stack pc'))
    (hpc : pc'.touches = none ∨ pc'.touches = pc.touches)
    (hpstate : s'.pstate x.1 = s.pstate x.1) (hthread : Elsewhere s s' x) : Spared s s' d x := by
  obtain ⟨hw, htouches⟩ := h.away hd hcpu
  refine h.step hcpu' (.inr ⟨w, stack, pc', rfl, hw, ?_⟩) hpstate hthread
  rcases hpc with hnone | hsame
  · rw [hnone]
    exact fun hsome => by cases hsome
  · rwa [hsame]

theorem Apart.tend {y : Slot} {t : Thread} (hcpu : s.cpu d = .run w stack pc)
    (hy : pc.touches = some y.1) (hcpu' : s'.cpu = update s.cpu d (.run w stack pc'))
    (hpc : pc'.touches = none ∨ pc'.touches = pc.touches)
    (hpstate : y.1 ≠ x.1 → s'.pstate x.1 = s.pstate x.1)
    (hthread : s'.thread = update s.thread y t)
    (ht : t.context.resume.pc.touches = none ∨ t.context = (s.thread y).context) :
    Spared s s' d x := by
  have hyx : y.1 ≠ x.1 := fun hyx => (h.away hd hcpu).2 (hy.trans (by rw [hyx]))
  refine h.goto hd hcpu hcpu' hpc (hpstate hyx) (elsewhere_of_update hthread hyx ?_)
  rcases ht with hnone | hsame
  · rw [hnone]
    exact fun hsome => by cases hsome
  · rw [hsame]
    exact h.saved y fun heq => hyx (by rw [heq])

end

theorem spared_of_effect (h : Apart s x) (hx : s.state x ≠ .sleeping)
    (hd : (s.cpu d).thread ≠ some x) (heffect : Effect s d cmd s') :
    Spared s s' d x ∨ (s.cpu d = .scheduling ∧ s.state x = .runnable ∧ s' = switchTo s d x) := by
  have haway : ∀ w stack pc, s.cpu d = .run w stack pc →
      w ≠ x ∧ w.1 ≠ x.1 ∧ pc.touches ≠ some x.1 := by
    intro w stack pc hcpu
    obtain ⟨hw, hpc⟩ := h.away hd hcpu
    exact ⟨fun hwx => hw (by rw [hwx]), hw, hpc⟩
  have hproc := h.proc
  have hsaved : ∀ w : Slot, w.1 ≠ x.1 → (s.thread w).context.resume.pc.touches ≠ some x.1 :=
    fun w hw => h.saved w fun hwx => hw (by rw [hwx])
  cases heffect with
  | moves w stack pc pc' _ hcpu hkept hcpu' hmoves =>
    obtain ⟨hw, hpc⟩ := h.away hd hcpu
    exact .inl (h.step hcpu' (.inr ⟨w, stack, pc', rfl, hw, hmoves.touches hw hpc⟩)
      (hkept.state x.1) (elsewhere_of_eq hkept.thread))
  | acquire hcpu | release hcpu => exact .inl (h.step rfl (.inl rfl) rfl (elsewhere_of_eq rfl))
  | switchTo w hcpu hw =>
    by_cases hwx : w = x
    · subst hwx
      exact .inr ⟨hcpu, hw, rfl⟩
    · have hproc : w.1 ≠ x.1 := by
        intro hproc
        have hslot : (x.1, w.2) = w := Prod.ext hproc.symm rfl
        have hdead := h.dead w.2 (by rwa [hslot])
        rw [hslot, hw] at hdead
        exact absurd hdead (by decide)
      exact .inl (h.step rfl (.inr ⟨w, _, _, rfl, hproc, hsaved w hproc⟩) rfl
        (elsewhere_of_update rfl hproc (hsaved w hproc)))
  | wakeup a =>
    exact .inl (h.spared (fun _ _ => rfl) rfl
      (h.elsewhere (wakeup1_context s _) (h.wakeup1 hx _)) haway)
  | take w stack mode hold hcpu | beginOp w stack mode hcpu | drop w hold | endOp w =>
    exact .inl (h.spared (fun _ _ => rfl) rfl (elsewhere_of_eq rfl) haway)
  | yield w stack k hcpu =>
    obtain ⟨hw, hpc⟩ := h.away hd hcpu
    exact .inl (h.step rfl (.inl rfl) rfl
      (elsewhere_of_update (yield_thread s d w stack k) hw hpc))
  | sleep w stack chan k hcpu =>
    obtain ⟨hw, hpc⟩ := h.away hd hcpu
    exact .inl (h.step rfl (.inl rfl) rfl
      (elsewhere_of_update (sleep_thread s d w stack chan k) hw hpc))
  | waitSleep w stack pc hcpu hpc =>
    exact .inl (h.step rfl (.inl rfl) rfl
      (elsewhere_of_update (waitSleep_thread s d w stack) (h.away hd hcpu).1 (by simp)))
  | waitReap w stack pc q hcpu hpc hq hgood =>
    have hqx : q ≠ x.1 := by
      rintro rfl
      rw [zombieChild_some hq] at hproc
      cases hproc
    refine .inl (h.goto hd hcpu rfl (.inl rfl) (pstate_of_update rfl hqx) (h.elsewhere ?_ ?_))
    · intro y
      simp only [waitReap, returnTo, State.setCpu, State.setProc]
      split <;> rfl
    · intro i
      simp only [waitReap, returnTo, State.setCpu, State.setProc]
      refine if_neg fun hmem => hqx ?_
      exact (waitFrees_proc hmem).symm
  | allocproc w stack p hcpu hp =>
    have hpx : p ≠ x.1 := by
      rintro rfl
      rw [hp] at hproc
      cases hproc
    refine .inl (h.step rfl (.inr ⟨w, stack, _, rfl, (h.away hd hcpu).1, by simpa⟩)
      (pstate_of_update rfl hpx) (h.elsewhere ?_ ?_))
    · intro y
      simp only [allocprocAt, State.setCpu, State.setLock]
      split <;> rfl
    · intro i
      simp only [allocprocAt, State.setCpu, State.setLock]
      exact if_neg (Ne.symm hpx)
  | allocAbandoned w stack p hcpu =>
    have hp : p ≠ x.1 := fun hp => (h.away hd hcpu).2 (by rw [hp]; rfl)
    exact .inl (h.goto hd hcpu rfl (.inl rfl) (pstate_of_update rfl hp) (elsewhere_of_eq rfl))
  | allocFound w stack p i rest caller hcpu hi =>
    exact .inl (h.tend hd (y := (p, i)) hcpu rfl rfl (.inr rfl) (fun _ => rfl) rfl (.inr rfl))
  | allocTid w stack y tid caller hcpu =>
    exact .inl (h.tend hd hcpu rfl rfl (.inr rfl) (fun _ => rfl) rfl (.inr rfl))
  | stackReady w stack y caller page hcpu hpage hfree =>
    exact .inl (h.tend hd hcpu rfl rfl (.inr (by cases caller <;> rfl)) (fun _ => rfl) rfl
      (.inl rfl))
  | stackFailed w stack y caller hcpu =>
    cases caller with
    | kthreadCreate =>
      exact .inl (h.tend hd hcpu rfl rfl (.inl rfl) (fun _ => rfl) rfl (.inr rfl))
    | fork =>
      exact .inl (h.tend hd hcpu rfl rfl (.inl rfl) (pstate_of_update rfl) rfl (.inr rfl))
  | kthreadCreate w stack y hcpu =>
    exact .inl (h.tend hd hcpu rfl rfl (.inl rfl) (fun _ => rfl) rfl (.inr rfl))
  | forkFailed w stack y hcpu | forkDone w stack y hcpu =>
    exact .inl (h.tend hd hcpu rfl rfl (.inl rfl) (pstate_of_update rfl) rfl (.inr rfl))
  | exit w stack hcpu hcmd hreleased hfree =>
    have hw := (h.away hd hcpu).1
    obtain ⟨told, hwakes, hthread⟩ := exit_told s d w stack
    refine .inl (h.goto hd hcpu (exit_cpu s d w stack) (.inl rfl) ?_ (h.elsewhere ?_ ?_))
    · rw [(exit_proc s d w stack x.1).2.2, if_neg (Ne.symm hw)]
    · intro y
      rw [hthread, ← (hwakes.woken.other y).2]
      simp only
      split <;> rfl
    · intro i
      rw [hthread]
      simp only [Ne.symm hw, false_and, if_false]
      exact (hwakes.thread (x.1, i)).resolve_right fun hsleep => h.awake hx i hsleep.1
  | exited w stack hcpu =>
    exact .inl (h.step rfl (.inl rfl) rfl
      (elsewhere_of_update rfl (h.away hd hcpu).1 (by simp)))
  | kthreadExit w stack hcpu hfree =>
    have hw := (h.away hd hcpu).1
    exact .inl (h.goto hd hcpu rfl (.inl rfl) rfl (elsewhere_of_update rfl hw (hsaved w hw)))
  | kthreadExitEnd w stack hcpu =>
    have hw := (h.away hd hcpu).1
    have hwoken : Elsewhere s (wakeup2 s w.1 (some (.thread w))) x := by
      refine h.elsewhere ?_ ?_
      · intro y
        simp only [wakeup2]
        split <;> rfl
      · intro i
        simp only [wakeup2]
        exact if_neg fun hmem => hw hmem.1.symm
    unfold kthreadExitEnd
    simp only
    split
    · unfold enterExit
      split <;> exact .inl (h.goto hd hcpu rfl (.inl rfl) rfl hwoken)
    · refine .inl (h.step rfl (.inl rfl) rfl ?_)
      intro y
      by_cases hy : y = w
      · subst hy
        exact .inr ⟨hw, by simp [sched]⟩
      · simpa [sched, hy] using hwoken y
  | joinDone w stack y id hcpu hy =>
    exact .inl (h.goto hd hcpu rfl (.inl rfl) rfl (elsewhere_of_eq rfl))
  | joinReap w stack y id looped hcpu | execReap w stack y rest threadsAlive hcpu
  | execWake w stack y rest hcpu =>
    exact .inl (h.tend hd hcpu rfl rfl (.inl rfl) (fun _ => rfl) rfl (.inr rfl))

/-! ### The first scan -/

def Code.execWait : Code → Bool
  | .waitBeforeExec | .rescan => true
  | _ => false

def Pc.execWait : Pc → Bool
  | .code k | .yielding k | .sleeping _ k => k.execWait
  | .execScan _ _ | .execReap _ _ _ | .execWake _ _ | .execSleep | .panic .execKfree => true
  | _ => false

def Cpu.execWaits (x : Slot) : Cpu → Bool
  | .run w _ pc => decide (w = x) && pc.execWait
  | _ => false

/-- Thread `x` has called `wait_before_exec` and has not returned from it. -/
def State.execWaits (s : State n) (x : Slot) : Prop :=
  (∃ c, (s.cpu c).execWaits x = true) ∨
    ((∀ c, (s.cpu c).thread ≠ some x) ∧ (s.thread x).context.resume.pc.execWait = true)

instance (s : State n) (x : Slot) : Decidable (s.execWaits x) :=
  inferInstanceAs (Decidable (_ ∨ _))

def Pc.scanLeft : Pc → Option Nat
  | .execScan rest _ => some (2 * rest.length)
  | .execReap _ rest _ => some (2 * rest.length + 1)
  | _ => none

/-- Before the first scan or inside it, with the threads that have been looked
at `UNUSED` and none found alive. -/
def FirstScan (s : State n) (x : Slot) : Pc → Prop
  | .code k | .yielding k => k = .waitBeforeExec
  | .execScan rest threadsAlive => threadsAlive = false ∧
    ∀ i, i ∉ rest → (x.1, i) ≠ x → s.state (x.1, i) = .unused
  | .execReap y rest threadsAlive => threadsAlive = false ∧ y.1 = x.1 ∧ y ≠ x ∧
    s.state y = .zombie ∧
    ∀ i, i ∉ rest → (x.1, i) ≠ x → (x.1, i) ≠ y → s.state (x.1, i) = .unused
  | _ => False

/-- Thread `x` is in its first scan, or preempted before it. -/
inductive Placed (s : State n) (x : Slot) : Prop
  | on (c : Fin n) (stack : Nat) (pc : Pc) (hcpu : s.cpu c = .run x stack pc)
    (honly : ∀ d, d ≠ c → (s.cpu d).thread ≠ some x) (hstate : s.state x = .running)
    (hscan : FirstScan s x pc)
  | off (hoff : ∀ d, (s.cpu d).thread ≠ some x) (hstate : s.state x = .runnable)
    (hresume : (s.thread x).context.resume = .yielded .waitBeforeExec)

structure Returned (s : State n) (x : Slot) : Prop where
  cpu : ∃ c stack, s.cpu c = .run x stack (.code (.work .syscall)) ∧
    ∀ d, d ≠ c → (s.cpu d).thread ≠ some x
  state : s.state x = .running
  unused : ∀ i, (x.1, i) ≠ x → s.state (x.1, i) = .unused
  executed : (s.proc x.1).executed = false

theorem Spared.apart (hs : Spared s s' d x) (h : Apart s x) : Apart s' x where
  proc := hs.pstate.trans h.proc
  dead := by
    intro i hi
    rw [State.state, hs.thread]
    exact h.dead i hi
  kstack := by
    intro i hi
    rw [State.state, hs.thread]
    exact h.kstack i hi
  running := by
    intro c w stack pc hcpu hw
    by_cases hc : c = d
    · subst hc
      exact (hs.here w stack pc hcpu).2
    · rw [hs.cpu c hc] at hcpu
      exact h.running c w stack pc hcpu hw
  saved := hs.saved

theorem Spared.off (hs : Spared s s' d x) : (s'.cpu d).thread ≠ some x := by
  intro hthread
  obtain ⟨stack, pc, hcpu⟩ := exists_run hthread
  exact (hs.here x stack pc hcpu).1 rfl

theorem FirstScan.congr (h : FirstScan s x pc) (hthread : ∀ i, s'.state (x.1, i) = s.state (x.1, i))
    : FirstScan s' x pc := by
  cases pc with
  | execScan rest threadsAlive =>
    exact ⟨h.1, fun i hi hix => by rw [hthread]; exact h.2 i hi hix⟩
  | execReap y rest threadsAlive =>
    obtain ⟨halive, hproc, hyx, hzombie, hunused⟩ := h
    have hslot : y = (x.1, y.2) := Prod.ext hproc rfl
    refine ⟨halive, hproc, hyx, by rw [hslot, hthread, ← hslot]; exact hzombie, ?_⟩
    intro i hi hix hiy
    rw [hthread]
    exact hunused i hi hix hiy
  | _ => exact h

theorem Spared.placed (hs : Spared s s' d x) (h : Placed s x) (hd : (s.cpu d).thread ≠ some x) :
    Placed s' x := by
  have hself : s'.thread x = s.thread x := hs.thread x.2
  cases h with
  | on c stack pc hcpu honly hstate hscan =>
    have hcd : c ≠ d := by
      rintro rfl
      exact hd (by rw [hcpu]; rfl)
    refine .on c stack pc (by rw [hs.cpu c hcd, hcpu]) ?_ (by rw [State.state, hself]; exact hstate)
      (hscan.congr fun i => by rw [State.state, hs.thread]; rfl)
    intro e he
    by_cases hed : e = d
    · subst hed
      exact hs.off
    · rw [hs.cpu e hed]
      exact honly e he
  | off hoff hstate hresume =>
    refine .off ?_ (by rw [State.state, hself]; exact hstate) (by rw [hself]; exact hresume)
    intro e
    by_cases hed : e = d
    · subst hed
      exact hs.off
    · rw [hs.cpu e hed]
      exact hoff e

theorem Apart.own (h : Apart s x) {v : Cpu} (hcpu : s'.cpu = update s.cpu c v)
    (hv : ∀ w stack pc, v = .run w stack pc → w = x) (hpstate : s'.pstate x.1 = s.pstate x.1)
    (hcontext : ∀ y, y ≠ x → (s'.thread y).context = (s.thread y).context)
    (hthread : ∀ i, (x.1, i) ≠ x →
      s'.thread (x.1, i) = s.thread (x.1, i) ∨ s'.state (x.1, i) = .unused) : Apart s' x where
  proc := hpstate.trans h.proc
  dead := by
    intro i hi
    rcases hthread i hi with hsame | hunused
    · rw [State.state, hsame]
      exact h.dead i hi
    · exact .inl hunused
  kstack := by
    intro i hi hzombie
    rcases hthread i hi with hsame | hunused
    · rw [State.state, hsame] at hzombie
      rw [hsame]
      exact h.kstack i hi hzombie
    · rw [hunused] at hzombie
      cases hzombie
  running := by
    intro d w stack pc hrun hw
    rw [hcpu] at hrun
    by_cases hd : d = c
    · subst hd
      rw [update_self] at hrun
      exact absurd (hv w stack pc hrun) hw
    · rw [update_of_ne hd] at hrun
      exact h.running d w stack pc hrun hw
  saved := by
    intro w hw
    rw [hcontext w hw]
    exact h.saved w hw

theorem only_of_update {v : Cpu} (honly : ∀ d, d ≠ c → (s.cpu d).thread ≠ some x)
    (hcpu : s'.cpu = update s.cpu c v) (d : Fin n) (hd : d ≠ c) :
    (s'.cpu d).thread ≠ some x := by
  rw [hcpu, update_of_ne hd]
  exact honly d hd

section

variable (h : Apart s x) (honly : ∀ d, d ≠ c → (s.cpu d).thread ≠ some x)
  (hstate : s.state x = .running)
include h honly hstate

theorem own_move (hcpu : s'.cpu = update s.cpu c (.run x stack pc'))
    (hthread : s'.thread = s.thread) (hpstate : s'.pstate x.1 = s.pstate x.1)
    (hscan : FirstScan s x pc') : Apart s' x ∧ Placed s' x := by
  have hsame : ∀ y, s'.state y = s.state y := fun y => by rw [State.state, hthread, State.state]
  refine ⟨h.own hcpu ?_ hpstate (fun y _ => by rw [hthread]) (fun i _ => .inl (by rw [hthread])),
    ?_⟩
  · rintro w stack' pc ⟨⟩
    rfl
  · exact .on c stack pc' (by rw [hcpu, update_self]) (only_of_update honly hcpu)
      ((hsame x).trans hstate) (hscan.congr fun i => hsame (x.1, i))

theorem own_code (hcpu : s.cpu c = .run x stack (.code .waitBeforeExec))
    (hstep : step s ⟨c, cmd⟩ = some s') : Apart s' x ∧ Placed s' x := by
  cases cmd with
  | tick =>
    simp only [step, hcpu, tick] at hstep
    obtain ⟨-, rfl⟩ := taken hstep
    exact own_move h honly hstate rfl rfl rfl rfl
  | wakeup chan =>
    simp only [step, hcpu] at hstep
    obtain ⟨-, rfl⟩ := taken hstep
    have hx : s.state x ≠ .sleeping := by simp [hstate]
    have hown := h.wakeup1 hx (some (.addr chan))
    have hself : (wakeup1 s (some (.addr chan))).state x = .running := by
      rw [State.state, hown x.2]
      exact hstate
    refine ⟨h.own (update_eq_self c s.cpu).symm ?_ rfl
      (fun y _ => wakeup1_context s _ y) (fun i _ => .inl (hown i)), ?_⟩
    · intro w stack' pc hw
      rw [hcpu] at hw
      cases hw
      rfl
    · exact .on c stack _ hcpu honly hself rfl
  | go =>
    simp only [step, hcpu, codeStep] at hstep
    obtain ⟨-, rfl⟩ := taken hstep
    refine own_move h honly hstate rfl rfl ?_ ⟨rfl, fun i hi => absurd (List.mem_finRange i) hi⟩
    simp [State.pstate, State.setLock, State.setProc]
  | _ => simp [step, hcpu, codeStep] at hstep

omit hstate in
theorem own_yield (hcpu : s.cpu c = .run x stack (.yielding .waitBeforeExec))
    (hstep : step s ⟨c, cmd⟩ = some s') : Apart s' x ∧ Placed s' x := by
  obtain rfl : cmd = .go := step_go hcpu (by simp) hstep
  simp only [step, hcpu, lockedStep] at hstep
  obtain ⟨-, rfl⟩ := taken hstep
  have hthread := yield_thread s c x stack .waitBeforeExec
  refine ⟨h.own rfl (by simp) rfl ?_ ?_, .off ?_ ?_ ?_⟩
  · intro y hy
    rw [hthread, update_of_ne hy]
  · intro i hi
    rw [hthread, update_of_ne hi]
    exact .inl rfl
  · intro d
    by_cases hd : d = c
    · subst hd
      simp [sched, Cpu.thread]
    · exact only_of_update honly rfl d hd
  · rw [State.state, hthread, update_self]
  · rw [hthread, update_self]

theorem own_scan {rest : List (Fin nthread)}
    (hcpu : s.cpu c = .run x stack (.execScan rest false))
    (hscan : FirstScan s x (.execScan rest false)) (hstep : step s ⟨c, cmd⟩ = some s') :
    (Apart s' x ∧ Placed s' x) ∨ Returned s' x := by
  obtain rfl : cmd = .go := step_go hcpu (by simp) hstep
  simp only [step, hcpu, lockedStep, Option.some.injEq] at hstep
  subst hstep
  cases rest with
  | nil =>
    right
    refine ⟨⟨c, stack, update_self _ _ _, only_of_update honly rfl⟩, hstate,
      fun i hi => hscan.2 i List.not_mem_nil hi, ?_⟩
    simp [execScan, returnTo, State.setLock, State.setProc]
  | cons i rest =>
    left
    -- the entries after this one are still to be looked at
    have hskip : ∀ j, j ∉ rest → (x.1, j) ≠ x → (x.1, j) ≠ (x.1, i) →
        s.state (x.1, j) = .unused := by
      intro j hj hjx hji
      refine hscan.2 j ?_ hjx
      exact fun hmem => (List.mem_cons.mp hmem).elim (fun heq => hji (by rw [heq])) hj
    simp only [execScan]
    split
    · rename_i hdone
      refine own_move h honly hstate rfl rfl rfl ⟨rfl, fun j hj hjx => ?_⟩
      by_cases hji : (x.1, j) = (x.1, i)
      · rw [hji]
        exact hdone.resolve_left fun hix => hjx (hji.trans hix)
      · exact hskip j hj hjx hji
    · rename_i hdone
      obtain ⟨hix, hused⟩ := not_or.mp hdone
      have hzombie : s.state (x.1, i) = .zombie := (h.dead i hix).resolve_left hused
      rw [State.state] at hzombie
      simp only [hzombie]
      exact own_move h honly hstate rfl rfl rfl ⟨rfl, rfl, hix, hzombie, hskip⟩

theorem own_reap {y : Slot} {rest : List (Fin nthread)}
    (hcpu : s.cpu c = .run x stack (.execReap y rest false))
    (hscan : FirstScan s x (.execReap y rest false)) (hstep : step s ⟨c, cmd⟩ = some s') :
    Apart s' x ∧ Placed s' x := by
  obtain rfl : cmd = .go := step_go hcpu (by simp) hstep
  simp only [step, hcpu, lockedStep, Option.some.injEq] at hstep
  subst hstep
  obtain ⟨-, hproc, hyx, hzombie, hunused⟩ := hscan
  have hslot : y = (x.1, y.2) := Prod.ext hproc rfl
  have hkstack : (s.thread y).kstack ≠ 0 := by
    rw [hslot] at hzombie hyx ⊢
    exact h.kstack y.2 hyx hzombie
  rw [execReap, if_neg hkstack]
  refine ⟨h.own rfl ?_ rfl ?_ ?_, .on c stack _ (update_self _ _ _)
    (only_of_update honly rfl) ?_ ⟨rfl, ?_⟩⟩
  · rintro w stack' pc ⟨⟩
    rfl
  · intro z _
    by_cases hzy : z = y <;> simp [hzy]
  · intro i _
    by_cases hiy : (x.1, i) = y
    · exact .inr (by simp [State.state, hiy])
    · exact .inl (by simp [hiy])
  · simpa [State.state, Ne.symm hyx] using hstate
  · intro i hi hix
    by_cases hiy : (x.1, i) = y
    · simp [State.state, hiy]
    · simpa [State.state, hiy] using hunused i hi hix hiy

end

theorem Placed.awake (h : Placed s x) : s.state x ≠ .sleeping := by
  cases h with
  | on c stack pc hcpu honly hstate hscan | off hoff hstate hresume => simp [hstate]

theorem placed_switchTo (h : Apart s x) (hp : Placed s x) (hx : s.state x = .runnable) :
    Apart (switchTo s d x) x ∧ Placed (switchTo s d x) x := by
  cases hp with
  | on c stack pc hcpu honly hstate hscan =>
    rw [hstate] at hx
    cases hx
  | off hoff hstate hresume =>
    refine ⟨h.own rfl ?_ rfl ?_ ?_, .on d _ _ (update_self _ _ _) ?_ ?_ ?_⟩
    · rintro w stack pc ⟨⟩
      rfl
    · intro y hy
      simp [switchTo, State.setTable, hy]
    · intro i hi
      exact .inl (by simp [switchTo, State.setTable, hi])
    · exact only_of_update (fun e _ => hoff e) rfl
    · simp [switchTo, State.state, State.setTable]
    · rw [hresume]
      rfl

theorem placed_step {a : Act n} (h : Apart s x) (hp : Placed s x) (hstep : step s a = some s') :
    (Apart s' x ∧ Placed s' x) ∨ Returned s' x := by
  obtain ⟨d, cmd⟩ := a
  by_cases hd : (s.cpu d).thread = some x
  · cases hp with
    | off hoff hstate hresume => exact absurd hd (hoff d)
    | on c stack pc hcpu honly hstate hscan =>
      obtain rfl : d = c := by
        by_contra hdc
        exact honly d hdc hd
      cases pc with
      | code k =>
        obtain rfl : k = .waitBeforeExec := hscan
        exact .inl (own_code h honly hstate hcpu hstep)
      | yielding k =>
        obtain rfl : k = .waitBeforeExec := hscan
        exact .inl (own_yield h honly hcpu hstep)
      | execScan rest threadsAlive =>
        obtain rfl : threadsAlive = false := hscan.1
        exact own_scan h honly hstate hcpu hscan hstep
      | execReap y rest threadsAlive =>
        obtain rfl : threadsAlive = false := hscan.1
        exact .inl (own_reap h honly hstate hcpu hscan hstep)
      | _ => exact hscan.elim
  · rcases spared_of_effect h hp.awake hd (effect_step hstep) with hs | ⟨-, hx, rfl⟩
    · exact .inl ⟨hs.apart h, hs.placed hp hd⟩
    · exact .inl (placed_switchTo h hp hx)

theorem scan_progress (h : Apart s x) (hcpu : s.cpu c = .run x stack pc) (hscan : FirstScan s x pc)
    {left : Nat} (hleft : pc.scanLeft = some left) :
    ∃ next pc', step s ⟨c, .go⟩ = some next ∧ next.cpu c = .run x stack pc' ∧
      (pc' = .code (.work .syscall) ∨ ∃ left', pc'.scanLeft = some left' ∧ left' < left) := by
  cases pc with
  | execScan rest threadsAlive =>
    obtain ⟨rfl, hdone⟩ := hscan
    obtain rfl : 2 * rest.length = left := by simpa [Pc.scanLeft] using hleft
    cases rest with
    | nil =>
      exact ⟨_, _, by simp only [step, hcpu, lockedStep]; rfl, update_self _ _ _,
        .inl rfl⟩
    | cons i rest =>
      refine ⟨execScan s c x stack false (i :: rest), ?_⟩
      have hstep : step s ⟨c, .go⟩ = some (execScan s c x stack false (i :: rest)) := by
        simp only [step, hcpu, lockedStep]
      by_cases hi : (x.1, i) = x ∨ (s.thread (x.1, i)).state = .unused
      · refine ⟨.execScan rest false, hstep, by simp [execScan, hi], .inr ⟨_, rfl, ?_⟩⟩
        simp only [List.length_cons]
        omega
      · obtain ⟨hix, hused⟩ := not_or.mp hi
        have hzombie : (s.thread (x.1, i)).state = .zombie := (h.dead i hix).resolve_left hused
        refine ⟨.execReap (x.1, i) rest false, hstep, by simp [execScan, hix, hzombie],
          .inr ⟨_, rfl, ?_⟩⟩
        simp only [List.length_cons]
        omega
  | execReap y rest threadsAlive =>
    obtain ⟨rfl, hproc, hyx, hzombie, -⟩ := hscan
    obtain rfl : 2 * rest.length + 1 = left := by simpa [Pc.scanLeft] using hleft
    have hslot : y = (x.1, y.2) := Prod.ext hproc rfl
    have hkstack : (s.thread y).kstack ≠ 0 := by
      rw [hslot] at hzombie hyx ⊢
      exact h.kstack y.2 hyx hzombie
    refine ⟨execReap s c x stack y rest false, .execScan rest false,
      by simp only [step, hcpu, lockedStep], ?_, .inr ⟨_, rfl, ?_⟩⟩
    · simp [execReap, hkstack]
    · omega
  | _ => cases hleft

theorem Returned.not_execWaits (h : Returned s x) : ¬ s.execWaits x := by
  obtain ⟨c, stack, hcpu, honly⟩ := h.cpu
  rintro (⟨d, hd⟩ | ⟨hoff, -⟩)
  · by_cases hdc : d = c
    · subst hdc
      simp [hcpu, Cpu.execWaits, Pc.execWait, Code.execWait] at hd
    · refine honly d hdc ?_
      cases hrun : s.cpu d with
      | run w stack' pc =>
        rw [hrun] at hd
        have hw : w = x := by
          simp only [Cpu.execWaits, Bool.and_eq_true, decide_eq_true_eq] at hd
          exact hd.1
        rw [hw]
        rfl
      | _ => simp [hrun, Cpu.execWaits] at hd
  · exact hoff c (by rw [hcpu]; rfl)

theorem Placed.execWaits (h : Placed s x) : s.execWaits x := by
  cases h with
  | on c stack pc hcpu honly hstate hscan =>
    refine .inl ⟨c, ?_⟩
    rw [hcpu]
    cases pc with
    | code k | yielding k =>
      obtain rfl : k = .waitBeforeExec := hscan
      simp [Cpu.execWaits, Pc.execWait, Code.execWait]
    | execScan rest threadsAlive | execReap y rest threadsAlive =>
      simp [Cpu.execWaits, Pc.execWait]
    | _ => exact hscan.elim
  | off hoff hstate hresume =>
    refine .inr ⟨hoff, ?_⟩
    rw [hresume]
    rfl

/-- A call of `exec` with no other thread of the process left alive. -/
structure CallsExecAlone (s : State n) (c : Fin n) (x : Slot) (stack : Nat) : Prop where
  apart : Apart s x
  cpu : s.cpu c = .run x stack (.code .waitBeforeExec)
  only : ∀ d, d ≠ c → (s.cpu d).thread ≠ some x
  running : s.state x = .running

/-- From such a call on, under every schedule and until `wait_before_exec`
returns: the caller is not made `ZOMBIE`; it does not get beyond its first scan
except by returning, and nothing holds the scan up; and when it has returned all
other threads are `UNUSED` and `executed` is 0. -/
theorem exec_alone_replaces_process (c : Fin n) (stack : Nat) (hcall : CallsExecAlone s c x stack)
    (labels : List (Act n)) (final : State n) (hrun : run step s labels = some final)
    (hwaits : Meets step (fun s _ => s.execWaits x) s labels) :
    final.state x ≠ .zombie ∧
    (final.execWaits x → ∀ d stack' pc, final.cpu d = .run x stack' pc →
      FirstScan final x pc ∧ ∀ left, pc.scanLeft = some left →
        ∃ next pc', step final ⟨d, .go⟩ = some next ∧ next.cpu d = .run x stack' pc' ∧
          (pc' = .code (.work .syscall) ∨ ∃ left', pc'.scanLeft = some left' ∧ left' < left)) ∧
    (¬ final.execWaits x →
      (∀ i, (x.1, i) ≠ x → final.state (x.1, i) = .unused) ∧
        (final.proc x.1).executed = false) := by
  have hkeep : ∀ (s : State n) a next, (Apart s x ∧ Placed s x) ∨ Returned s x →
      s.execWaits x → step s a = some next → (Apart next x ∧ Placed next x) ∨ Returned next x := by
    rintro s a next (⟨hapart, hplaced⟩ | hreturned) hguard hstep
    · exact placed_step hapart hplaced hstep
    · exact absurd hguard hreturned.not_execWaits
  have hstart : Placed s x := .on c stack _ hcall.cpu hcall.only hcall.running rfl
  rcases run_invariant hkeep (.inl ⟨hcall.apart, hstart⟩) hwaits hrun with
    ⟨hapart, hplaced⟩ | hreturned
  · refine ⟨?_, fun _ d stack' pc hcpu => ?_, fun hnot => absurd hplaced.execWaits hnot⟩
    · cases hplaced with
      | on d stack' pc hcpu honly hstate hscan | off hoff hstate hresume => simp [hstate]
    · cases hplaced with
      | on e stack'' pc'' hcpu' honly hstate hscan =>
        obtain rfl : d = e := by
          by_contra hde
          exact honly d hde (by rw [hcpu]; rfl)
        cases hcpu.symm.trans hcpu'
        exact ⟨hscan, fun left hleft => scan_progress hapart hcpu hscan hleft⟩
      | off hoff hstate hresume => exact absurd (by rw [hcpu]; rfl) (hoff d)
  · exact ⟨by simp [hreturned.state], fun hwait => absurd hwait hreturned.not_execWaits,
      fun _ => ⟨hreturned.unused, hreturned.executed⟩⟩

/-- The second thread of a process ends, then the first one calls `exec`. -/
def execAfterExit : List (Act 1) :=
  twoThreads onlyCpu ++ on onlyCpu [.tick, .go, .pick (proc1, thread1), .call .kthreadExit, .go,
    .go, .pick (proc1, thread0), .call .exec]

/-- What makes a call of `exec` by the first thread of the process a call alone,
on one CPU. -/
def callsAlone (s : State 1) : Bool :=
  decide (s.cpu onlyCpu = .run (proc1, thread0) 2 (.code .waitBeforeExec)) &&
  decide (s.state (proc1, thread0) = .running) &&
  decide (s.pstate proc1 = .runnable) &&
  decide (∀ i, (proc1, i) ≠ (proc1, thread0) → ProcState.dead (s.state (proc1, i))) &&
  decide (∀ i, s.state (proc1, i) = .zombie → (s.thread (proc1, i)).kstack ≠ 0) &&
  decide (∀ p i, (s.thread (p, i)).context.resume.pc.touches ≠ some proc1)

theorem callsExecAlone_of_callsAlone {s : State 1} (h : callsAlone s = true) :
    CallsExecAlone s onlyCpu (proc1, thread0) 2 := by
  simp only [callsAlone, Bool.and_eq_true, decide_eq_true_eq] at h
  obtain ⟨⟨⟨⟨⟨hcpu, hstate⟩, hproc⟩, hdead⟩, hkstack⟩, hsaved⟩ := h
  have hone : ∀ d : Fin 1, d = onlyCpu := fun d => Subsingleton.elim d onlyCpu
  refine ⟨⟨hproc, hdead, fun i _ => hkstack i, ?_, fun w _ => hsaved w.1 w.2⟩, hcpu,
    fun d hd => absurd (hone d) hd, hstate⟩
  intro d w stack pc hrun hw
  rw [hone d, hcpu] at hrun
  cases hrun
  exact absurd rfl hw

/-- The dead sibling is freed and `exec` goes on. -/
theorem exec_alone_replaces_process_after_exit :
    ∃ s final, run step (boot 1 1) execAfterExit = some s ∧
      s.state (proc1, thread1) = .zombie ∧
      run step s (on onlyCpu (List.replicate 19 .go)) = some final ∧
      final.state (proc1, thread0) ≠ .zombie ∧ ¬ final.execWaits (proc1, thread0) ∧
      (∀ i, (proc1, i) ≠ (proc1, thread0) → final.state (proc1, i) = .unused) ∧
      (final.proc proc1).executed = false := by
  obtain ⟨s, hs, hzombie, hcalls, hmeets, final, hfinal, hnot⟩ :
      ∃ s, run step (boot 1 1) execAfterExit = some s ∧ s.state (proc1, thread1) = .zombie ∧
        callsAlone s = true ∧ Meets step (fun s _ => s.execWaits (proc1, thread0)) s
          (on onlyCpu (List.replicate 19 .go)) ∧
        ∃ final, run step s (on onlyCpu (List.replicate 19 .go)) = some final ∧
          ¬ final.execWaits (proc1, thread0) := by
    decide +kernel
  obtain ⟨hlive, -, hback⟩ := exec_alone_replaces_process onlyCpu 2
    (callsExecAlone_of_callsAlone hcalls) _ final hfinal hmeets
  exact ⟨s, final, hs, hzombie, hfinal, hlive, hnot, hback hnot⟩

/-- The second thread is in user space on the other CPU when the first one calls
`exec`; its next timer interrupt sees `executed`. -/
def execBesideThread : List (Act 2) :=
  twoThreads leftCpu ++ on rightCpu [.go, .pick (proc1, thread1)] ++
    on leftCpu (.call .exec :: List.replicate 21 .go) ++ on rightCpu [.trap, .exit]

/-- `exit` of the sibling makes the thread that waits in `exec` a `ZOMBIE`. -/
theorem exec_caller_made_zombie : ∃ final, run step (boot 2 1) execBesideThread = some final ∧
      (final.proc proc1).executed = true ∧
      (final.thread (proc1, thread0)).context.resume.pc.execWait = true ∧
      final.state (proc1, thread0) = .zombie := by
  decide +kernel

end Xv6.Kernel
