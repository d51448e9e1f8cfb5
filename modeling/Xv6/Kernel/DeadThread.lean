import Xv6.Kernel.Steps

/-! A dead thread holds nothing. `exit` marks its sibling threads wherever they
are, so this needs that no sibling is inside a system call that holds something
at that moment. -/
namespace Xv6.Kernel
open Function (update update_self update_of_ne update_eq_self)
open Transition

variable {n : Nat}

/-- The thread holds no buffer or inode, is not counted by the log and is not
inside a `fork`. -/
def State.idle (s : State n) (x : Slot) : Prop :=
  s.released x ∧ ∀ p, (s.proc p).maker ≠ some x

instance (s : State n) (x : Slot) : Decidable (s.idle x) :=
  inferInstanceAs (Decidable (_ ∧ _))

/-- No `ZOMBIE` thread holds a `B_BUSY` buffer or an `I_BUSY` inode, is counted
in `log.outstanding`, or has left a process half made. -/
structure DeadHoldNothing (s : State n) : Prop where
  busy : ∀ x h, s.state x = .zombie → (h, x) ∉ s.busy
  outstanding : ∀ x, s.state x = .zombie → x ∉ s.outstanding
  forks : ∀ x p, s.state x = .zombie → ¬ (s.pstate p = .embryo ∧ (s.proc p).maker = some x)

def State.siblingsIdle (s : State n) (x : Slot) : Prop :=
  ∀ i, (x.1, i) ≠ x → s.idle (x.1, i)

instance (s : State n) (x : Slot) : Decidable (s.siblingsIdle x) :=
  Nat.decidableForallFin _

/-- `exit` finds its sibling threads idle, and the last thread of a process does
not leave by `kthread_exit`, which calls `exit` as a `ZOMBIE`. -/
def Orderly (s : State n) (a : Act n) : Prop :=
  Calm s a ∧ (a.cmd.exits = true → ∀ x ∈ (s.cpu a.cpu).exiting, s.siblingsIdle x) ∧
    ∀ x ∈ (s.cpu a.cpu).leaving, 0 < (liveThreads s x.1).length

instance (s : State n) (a : Act n) : Decidable (Orderly s a) :=
  @instDecidableAnd _ _ inferInstance (@instDecidableAnd _ _
    (@instDecidableForall _ _ inferInstance (Option.decidableForallMem _))
    (Option.decidableForallMem _))

def Pc.works : Pc → Bool
  | .code (.work _) | .yielding (.work _) | .sleeping _ (.work _) => true
  | _ => false

structure HoldsAt (s : State n) (x : Slot) (pc : Pc) : Prop where
  released : pc.works = false → s.released x
  forks : ∀ p, (s.proc p).maker = some x → pc.forks = some p

def ProcState.resting (state : ProcState) : Prop :=
  state = .unused ∨ state = .embryo ∨ state = .zombie

attribute [local simp] ProcState.resting State.setCpu boot

structure Held (s : State n) : Prop where
  resting : ∀ x, ProcState.resting (s.state x) → s.idle x
  running : ∀ c x stack pc, s.cpu c = .run x stack pc →
    HoldsAt s x pc ∧ (pc.settled = true → s.state x = .running)
  saved : ∀ x, s.ready x → (∀ c, (s.cpu c).thread ≠ some x) →
    HoldsAt s x (s.thread x).context.resume.pc

variable {s s' : State n} {c : Fin n} {x y : Slot} {stack : Nat} {pc pc' : Pc}

theorem Moves.works (h : Moves s x pc pc') (hpc : pc.works = true) (hpc' : pc'.works = false) :
    s.released x := by
  cases h <;> simp_all [Pc.works]
  case tick k _ => cases k <;> simp_all
  case initExit k hk => rcases hk with rfl | ⟨-, hreleased⟩ <;> simp_all
  case waitPanic hwait => rcases hwait with ⟨rfl, -⟩ | rfl <;> simp_all

theorem Moves.forks (h : Moves s x pc pc') : pc'.forks = pc.forks := by
  cases h <;> simp_all [Pc.forks, Code.forks]
  case call syscall _ => cases syscall <;> rfl
  case exit k hk => rcases hk with rfl | ⟨rfl, -⟩ <;> rfl
  case initExit k hk => rcases hk with rfl | ⟨rfl, -⟩ <;> rfl
  case allocLock p caller => cases caller <;> rfl
  case allocSkip p i rest caller => cases caller <;> rfl
  case wait hwait => rcases hwait with ⟨rfl, -⟩ | rfl <;> rfl
  case waitPanic hwait => rcases hwait with ⟨rfl, -⟩ | rfl <;> rfl

/-- Nothing is taken and no process is taken by the step. -/
structure Fewer (s s' : State n) : Prop where
  released : ∀ z, s.released z → s'.released z
  maker : ∀ z p, (s'.proc p).maker = some z → (s.proc p).maker = some z

namespace Fewer

variable (hs : Fewer s s')
include hs

theorem idle (h : s.idle x) : s'.idle x :=
  ⟨hs.released x h.1, fun p hp => h.2 p (hs.maker x p hp)⟩

theorem holdsAt (h : HoldsAt s x pc) : HoldsAt s' x pc :=
  ⟨fun hpc => hs.released x (h.released hpc), fun p hp => h.forks p (hs.maker x p hp)⟩

end Fewer

theorem Fewer.of_eq (hbusy : s'.busy = s.busy) (hout : s'.outstanding = s.outstanding)
    (hmaker : ∀ p, (s'.proc p).maker = (s.proc p).maker) : Fewer s s' where
  released := fun z hz => by rwa [State.released, hbusy, hout]
  maker := fun z p hp => hmaker p ▸ hp

theorem HoldsAt.idle (h : HoldsAt s x pc) (hworks : pc.works = false) (hforks : pc.forks = none) :
    s.idle x := by
  refine ⟨h.released hworks, fun p hp => ?_⟩
  have := h.forks p hp
  simp [hforks] at this

theorem holdsAt_of_idle (h : s.idle x) : HoldsAt s x pc :=
  ⟨fun _ => h.1, fun p hp => absurd hp (h.2 p)⟩

theorem HoldsAt.congr (h : HoldsAt s x pc) (hworks : pc.works = true → pc'.works = true)
    (hforks : pc'.forks = pc.forks) : HoldsAt s x pc' := by
  refine ⟨fun hpc' => h.released ?_, fun p hp => hforks ▸ h.forks p hp⟩
  by_contra hpc
  simp [hworks (by simpa using hpc)] at hpc'

section

variable {t : Thread} {v : Cpu}

theorem Held.store (h : Held s) (hs : Fewer s s')
    (hthread : s'.thread = update s.thread y t)
    (hcpu : s'.cpu = update s.cpu c v)
    (hleave : ∀ z, (s.cpu c).thread = some z → z ≠ y → v.thread = some z)
    (hran : ∀ c' stack pc, c' ≠ c → s.cpu c' = .run y stack pc → pc.settled = true →
      t.state = s.state y)
    (hy : ProcState.resting t.state → s'.idle y)
    (hready : t.state = .runnable ∨ t.state = .sleeping →
      (∀ c', (s'.cpu c').thread ≠ some y) → HoldsAt s' y t.context.resume.pc)
    (hv : ∀ x stack pc, v = .run x stack pc →
      HoldsAt s' x pc ∧ (pc.settled = true → s'.state x = .running)) : Held s' := by
  have hself := self_of_update hcpu
  have hother : ∀ {c'}, c' ≠ c → s'.cpu c' = s.cpu c' := stay_of_update hcpu
  have hstay : ∀ {z}, z ≠ y → s'.thread z = s.thread z := stay_of_update hthread
  have hyt : s'.state y = t.state := by rw [State.state, hthread, update_self]
  refine ⟨fun z hz => ?_, fun c' z stack pc hrun => ?_, fun z hz hnone => ?_⟩
  · by_cases hzy : z = y
    · subst hzy
      exact hy (hyt ▸ hz)
    · rw [State.state, hstay hzy] at hz
      exact hs.idle (h.resting z hz)
  · by_cases hc' : c' = c
    · subst hc'
      exact hv z stack pc (hself.symm.trans hrun)
    · rw [hother hc'] at hrun
      obtain ⟨hholds, hrunning⟩ := h.running c' z stack pc hrun
      refine ⟨hs.holdsAt hholds, fun hsettled => ?_⟩
      by_cases hzy : z = y
      · subst hzy
        rw [hyt, hran c' stack pc hc' hrun hsettled]
        exact hrunning hsettled
      · rw [State.state, hstay hzy]
        exact hrunning hsettled
  · by_cases hzy : z = y
    · subst hzy
      rw [State.ready, hyt] at hz
      rw [hthread, update_self]
      exact hready hz hnone
    · rw [State.ready, State.state, hstay hzy] at hz
      rw [hstay hzy]
      refine hs.holdsAt (h.saved z hz fun c' hrun => ?_)
      by_cases hc' : c' = c
      · subst hc'
        exact hnone c' (by rw [hself]; exact hleave z hrun hzy)
      · exact hnone c' (by rw [hother hc']; exact hrun)

theorem Held.move (h : Held s) (hs : Fewer s s') (hstate : ∀ y, s'.state y = s.state y)
    (hcontext : ∀ y, (s'.thread y).context = (s.thread y).context)
    (hcpu : s'.cpu = update s.cpu c v) (hthread : v.thread = (s.cpu c).thread)
    (hv : ∀ x stack pc, v = .run x stack pc →
      HoldsAt s' x pc ∧ (pc.settled = true → s.state x = .running)) : Held s' := by
  have hkept : ∀ c', (s'.cpu c').thread = (s.cpu c').thread := by
    rw [hcpu]
    exact field_update Cpu.thread hthread
  refine ⟨fun z hz => ?_, fun c' z stack pc hrun => ?_, fun z hz hnone => ?_⟩
  · rw [hstate] at hz
    exact hs.idle (h.resting z hz)
  · rw [hstate]
    rw [hcpu] at hrun
    by_cases hc' : c' = c
    · subst hc'
      rw [update_self] at hrun
      exact hv z stack pc hrun
    · rw [update_of_ne hc'] at hrun
      obtain ⟨hholds, hrunning⟩ := h.running c' z stack pc hrun
      exact ⟨hs.holdsAt hholds, hrunning⟩
  · rw [State.ready, hstate] at hz
    rw [hcontext]
    exact hs.holdsAt (h.saved z hz fun c' hrun => hnone c' (by rw [hkept, hrun]))

theorem Held.wake (h : Held s) (hw : Wakes s s') (hs : Fewer s s') : Held s' where
  resting := fun z hz => by
    refine hs.idle (h.resting z ?_)
    rcases hw.woken.state z with heq | ⟨-, hrunnable⟩
    · rwa [heq] at hz
    · rw [hrunnable] at hz
      simp at hz
  running := fun c' z stack pc hrun => by
    rw [hw.cpu] at hrun
    obtain ⟨hholds, hrunning⟩ := h.running c' z stack pc hrun
    refine ⟨hs.holdsAt hholds, fun hsettled => ?_⟩
    exact (hw.woken.state_eq (by decide) (by decide)).mpr (hrunning hsettled)
  saved := fun z hz hnone => by
    rw [(hw.woken.other z).2]
    exact hs.holdsAt (h.saved z (hw.woken.ready hz) (hw.cpu ▸ hnone))

theorem Held.take {mode : Mode} (h : Held s) (hcpu : s.cpu c = .run x stack (.code (.work mode)))
    (hunique : ∀ c', (s.cpu c').thread = some x → c' = c)
    (hreleased : ∀ z, z ≠ x → s.released z → s'.released z) (hproc : s'.proc = s.proc)
    (hthread : s'.thread = s.thread) (hcpu' : s'.cpu = s.cpu) : Held s' := by
  have hrunning := (h.running c x stack _ hcpu).2 rfl
  have hholds : ∀ {z pc}, z ≠ x → HoldsAt s z pc → HoldsAt s' z pc := by
    intro z pc hz hholds
    refine ⟨fun hpc => hreleased z hz (hholds.released hpc), fun p hp => ?_⟩
    rw [hproc] at hp
    exact hholds.forks p hp
  have hmoving : ∀ {z}, s'.state z ≠ .running → z ≠ x := by
    rintro z hz rfl
    rw [State.state, hthread] at hz
    exact hz hrunning
  refine ⟨fun z hz => ?_, fun c' z stack' pc' hrun => ?_, fun z hz hnone => ?_⟩
  · have hne : z ≠ x := hmoving fun heq => by simp [heq] at hz
    rw [State.state, hthread] at hz
    have hidle := h.resting z hz
    exact ⟨hreleased z hne hidle.1, by rw [hproc]; exact hidle.2⟩
  · rw [hcpu'] at hrun
    rw [State.state, hthread]
    obtain ⟨hat, hstate⟩ := h.running c' z stack' pc' hrun
    refine ⟨?_, hstate⟩
    by_cases hz : z = x
    · subst hz
      cases hunique c' (cpu_thread hrun)
      cases hcpu.symm.trans hrun
      refine ⟨fun hpc => (by cases hpc), fun p hp => ?_⟩
      rw [hproc] at hp
      exact hat.forks p hp
    · exact hholds hz hat
  · have hne : z ≠ x := hmoving fun heq => by simp [State.ready, heq] at hz
    rw [State.ready, State.state, hthread] at hz
    rw [hcpu'] at hnone
    rw [hthread]
    exact hholds hne (h.saved z hz hnone)

theorem Held.mark (h : Held s) (hcpu : s.cpu c = .run x stack (.code (.work .exit)))
    (hreleased : s.released x) (halone : s.alone c x.1)
    (hidle : ∀ i, (x.1, i) ≠ x → s.idle (x.1, i)) (hs : Fewer s s')
    (hother : ∀ y, y.1 ≠ x.1 → s'.thread y = s.thread y)
    (hmarked : ∀ y, y.1 = x.1 → ProcState.dead (s'.state y))
    (hcpu' : s'.cpu = update s.cpu c (.run x stack .exited)) : Held s' := by
  have hx : s.idle x := by
    refine ⟨hreleased, fun p hp => ?_⟩
    have := (h.running c x stack _ hcpu).1.forks p hp
    simp [Pc.forks, Code.forks] at this
  have hsiblings : ∀ y, y.1 = x.1 → s.idle y := by
    rintro ⟨p, i⟩ rfl
    by_cases hix : (x.1, i) = x
    · rw [hix]
      exact hx
    · exact hidle i hix
  refine ⟨fun z hz => ?_, fun c' z stack' pc' hrun => ?_, fun z hz hnone => ?_⟩
  · by_cases hzx : z.1 = x.1
    · exact hs.idle (hsiblings z hzx)
    · rw [State.state, hother z hzx] at hz
      exact hs.idle (h.resting z hz)
  · rw [hcpu'] at hrun
    by_cases hc' : c' = c
    · subst hc'
      rw [update_self] at hrun
      cases hrun
      exact ⟨holdsAt_of_idle (hs.idle hx), fun hsettled => by cases hsettled⟩
    · rw [update_of_ne hc'] at hrun
      obtain ⟨hat, hstate⟩ := h.running c' z stack' pc' hrun
      have hzx : z.1 ≠ x.1 := by
        intro heq
        exact halone c' hc' (by rw [cpu_thread hrun, Option.map_some, heq])
      rw [State.state, hother z hzx]
      exact ⟨hs.holdsAt hat, hstate⟩
  · have hzx : z.1 ≠ x.1 := by
      intro heq
      rcases hmarked z heq with hdead | hdead <;> simp [State.ready, hdead] at hz
    rw [State.ready, State.state, hother z hzx] at hz
    rw [hother z hzx]
    refine hs.holdsAt (h.saved z hz fun c' hrun => ?_)
    by_cases hc' : c' = c
    · subst hc'
      cases (cpu_thread hcpu).symm.trans hrun
      exact hzx rfl
    · exact hnone c' (by rw [hcpu', update_of_ne hc', hrun])

theorem Held.allocproc {p : Fin nproc} (h : Held s) (hinv : Inv s)
    (hcpu : s.cpu c = .run x stack (.code .allocproc)) (hp : s.pstate p = .unused) :
    Held (allocprocAt s c x stack p) := by
  obtain ⟨hat, hrunning⟩ := h.running c x stack _ hcpu
  have hdead : ∀ y : Slot, y.1 = p → ProcState.dead (s.state y) := by
    rintro y rfl
    by_contra hlive
    have := hinv.lives y hlive
    simp [hp] at this
  have hmaker : ∀ {z q}, ((allocprocAt s c x stack p).proc q).maker = some z →
      (q = p ∧ z = x) ∨ (s.proc q).maker = some z := by
    intro z q hq
    by_cases hqp : q = p
    · subst hqp
      simp only [allocprocAt, State.setLock, State.setCpu, update_self, Option.some.injEq] at hq
      exact Or.inl ⟨rfl, hq.symm⟩
    · simp only [allocprocAt, State.setLock, State.setCpu, update_of_ne hqp] at hq
      exact Or.inr hq
  have hidle : ∀ {z}, z ≠ x → s.idle z → (allocprocAt s c x stack p).idle z := by
    intro z hz hidle
    refine ⟨hidle.1, fun q hq => ?_⟩
    rcases hmaker hq with ⟨-, heq⟩ | hold
    · exact hz heq
    · exact hidle.2 q hold
  have hholds : ∀ {z pc}, z ≠ x → HoldsAt s z pc → HoldsAt (allocprocAt s c x stack p) z pc := by
    intro z pc hz hholds
    refine ⟨hholds.released, fun q hq => ?_⟩
    rcases hmaker hq with ⟨-, heq⟩ | hold
    · exact absurd heq hz
    · exact hholds.forks q hold
  have hthread : ∀ y, y.1 ≠ p → (allocprocAt s c x stack p).thread y = s.thread y :=
    fun y hy => if_neg hy
  have hcpus : (allocprocAt s c x stack p).cpu =
      update s.cpu c (.run x stack (.code (.allocthread p .fork))) := rfl
  have hx : x.1 ≠ p := by
    intro heq
    have := hdead x heq
    simp [hrunning rfl] at this
  refine ⟨fun z hz => ?_, fun c' z stack' pc' hrun => ?_, fun z hz hnone => ?_⟩
  · have hne : z ≠ x := by
      rintro rfl
      rw [State.state, hthread z hx] at hz
      have hstate := hrunning rfl
      rw [State.state] at hstate
      simp [hstate] at hz
    refine hidle hne (h.resting z ?_)
    by_cases hzp : z.1 = p
    · rcases hdead z hzp with hstate | hstate <;> simp [hstate]
    · rwa [State.state, hthread z hzp] at hz
  · rw [hcpus] at hrun
    by_cases hc' : c' = c
    · subst hc'
      rw [update_self] at hrun
      cases hrun
      rw [State.state, hthread x hx]
      refine ⟨⟨fun _ => hat.released rfl, fun q hq => ?_⟩, fun _ => hrunning rfl⟩
      rcases hmaker hq with ⟨rfl, -⟩ | hold
      · rfl
      · have := hat.forks q hold
        simp [Pc.forks, Code.forks] at this
    · rw [update_of_ne hc'] at hrun
      have hzp : z.1 ≠ p := by
        intro heq
        have := hinv.alive c' z stack' pc' hrun
        simp [heq, hp] at this
      have hzx : z ≠ x := by
        rintro rfl
        exact hc' (hinv.unique c' c z (cpu_thread hrun) (cpu_thread hcpu))
      obtain ⟨hat', hstate⟩ := h.running c' z stack' pc' hrun
      rw [State.state, hthread z hzp]
      exact ⟨hholds hzx hat', hstate⟩
  · have hzp : z.1 ≠ p := by
      intro heq
      simp [State.ready, State.state, allocprocAt, State.setLock, heq] at hz
    rw [State.ready, State.state, hthread z hzp] at hz
    have hzx : z ≠ x := by
      rintro rfl
      have hstate := hrunning rfl
      rw [State.state] at hstate
      simp [hstate] at hz
    rw [hthread z hzp]
    refine hholds hzx (h.saved z hz fun c' hrun => ?_)
    by_cases hc' : c' = c
    · subst hc'
      cases (cpu_thread hcpu).symm.trans hrun
      exact hzx rfl
    · exact hnone c' (by rw [hcpus, update_of_ne hc', hrun])

theorem Held.goto (h : Held s) (hs : Fewer s s') (hcpu : s.cpu c = .run x stack pc)
    (hsettled : pc.settled = true) (hcpu' : s'.cpu = update s.cpu c (.run x stack pc'))
    (hstate : ∀ y, s'.state y = s.state y)
    (hcontext : ∀ y, (s'.thread y).context = (s.thread y).context)
    (hat : HoldsAt s' x pc') : Held s' := by
  refine h.move hs hstate hcontext hcpu' (cpu_thread hcpu).symm ?_
  intro z stack' pc'' heq
  cases heq
  exact ⟨hat, fun _ => (h.running c x stack pc hcpu).2 hsettled⟩

/-- The thread goes on and stores the record of a thread that does not run. -/
theorem Held.keep (h : Held s) (hrest : ProcState.resting (s.state y)) (hs : Fewer s s')
    (hcpu : s.cpu c = .run x stack pc) (hsettled : pc.settled = true)
    (hthread : s'.thread = update s.thread y t)
    (hcpu' : s'.cpu = update s.cpu c (.run x stack pc')) (hat : HoldsAt s' x pc') : Held s' := by
  have hrunning := (h.running c x stack pc hcpu).2 hsettled
  have hidle := hs.idle (h.resting y hrest)
  refine h.store hs hthread hcpu' ?_ ?_ (fun _ => hidle) (fun _ _ => holdsAt_of_idle hidle) ?_
  · intro z hz _
    rw [cpu_thread hcpu] at hz
    exact hz
  · intro c' stack' pc'' _ hrun hsettled''
    rw [(h.running c' y stack' pc'' hrun).2 hsettled''] at hrest
    simp at hrest
  · intro x' stack' pc'' heq
    cases heq
    have hxy : x ≠ y := by
      rintro rfl
      simp [hrunning] at hrest
    refine ⟨hat, fun _ => ?_⟩
    rw [State.state, hthread, update_of_ne hxy]
    exact hrunning

theorem Held.tend (h : Held s) (hrest : ProcState.resting (s.state y)) (hs : Fewer s s')
    (hcpu : s.cpu c = .run x stack pc) (hsettled : pc.settled = true)
    (hthread : s'.thread = update s.thread y t)
    (hcpu' : s'.cpu = update s.cpu c (.run x stack pc'))
    (hworks : pc.works = true → pc'.works = true) (hforks : pc'.forks = pc.forks) : Held s' :=
  h.keep hrest hs hcpu hsettled hthread hcpu'
    (hs.holdsAt ((h.running c x stack pc hcpu).1.congr hworks hforks))

theorem Held.leave (h : Held s) (hinv : Inv s) (hs : Fewer s s') (hcpu : s.cpu c = .run x stack pc)
    (hthread : s'.thread = update s.thread x t)
    (hcpu' : s'.cpu = update s.cpu c .scheduling)
    (hx : ProcState.resting t.state → s.idle x) (hat : HoldsAt s x t.context.resume.pc) :
    Held s' := by
  refine h.store hs hthread hcpu' ?_ ?_ (fun hrest => hs.idle (hx hrest))
    (fun _ _ => hs.holdsAt hat) (fun _ _ _ heq => by cases heq)
  · intro z hz hne
    rw [cpu_thread hcpu] at hz
    cases hz
    exact absurd rfl hne
  · intro c' stack' pc'' hne hrun _
    exact absurd (hinv.unique c' c x (cpu_thread hrun) (cpu_thread hcpu)) hne

theorem HoldsAt.done {q : Proc} (h : HoldsAt s x pc) (hpc : pc.works = false)
    (hforks : pc.forks = some y.1) (hmaker : q.maker = none) (hbusy : s'.busy = s.busy)
    (hout : s'.outstanding = s.outstanding) (hproc : s'.proc = update s.proc y.1 q) :
    HoldsAt s' x pc' := by
  refine ⟨fun _ => ?_, fun p hp => ?_⟩
  · rw [State.released, hbusy, hout]
    exact h.released hpc
  · rw [hproc] at hp
    by_cases heq : p = y.1
    · rw [heq, update_self, hmaker] at hp
      cases hp
    · rw [update_of_ne heq] at hp
      have := h.forks p hp
      rw [hforks] at this
      cases this
      exact absurd rfl heq

theorem Fewer.of_done {p : Fin nproc} {q : Proc} (hmaker : q.maker = none)
    (hbusy : s'.busy = s.busy) (hout : s'.outstanding = s.outstanding)
    (hproc : s'.proc = update s.proc p q) : Fewer s s' where
  released := fun z hz => by rwa [State.released, hbusy, hout]
  maker := fun z p' hp => by
    rw [hproc] at hp
    by_cases heq : p' = p
    · rw [heq, update_self, hmaker] at hp
      cases hp
    · rwa [update_of_ne heq] at hp

theorem Held.done {q : Proc} (h : Held s) (hrest : ProcState.resting (s.state y))
    (hcpu : s.cpu c = .run x stack pc) (hpc : pc.settled = true ∧ pc.works = false)
    (hforks : pc.forks = some y.1) (hmaker : q.maker = none) (hbusy : s'.busy = s.busy)
    (hout : s'.outstanding = s.outstanding) (hproc : s'.proc = update s.proc y.1 q)
    (hthread : s'.thread = update s.thread y t)
    (hcpu' : s'.cpu = update s.cpu c (.run x stack pc')) : Held s' :=
  h.keep hrest (.of_done hmaker hbusy hout hproc) hcpu hpc.1 hthread hcpu'
    ((h.running c x stack pc hcpu).1.done hpc.2 hforks hmaker hbusy hout hproc)

end

theorem held_switchTo (hinv : Inv s) (h : Held s) (hcpu : s.cpu c = .scheduling)
    (hx : s.state x = .runnable) : Held (switchTo s c x) := by
  have hnone := hinv.off_of_runnable hcpu hx
  have hs : Fewer s (switchTo s c x) := .of_eq rfl rfl fun _ => rfl
  refine h.store hs rfl rfl ?_ ?_ ?_ ?_ ?_
  · intro z hz
    exact absurd hz (by rw [hcpu]; simp [Cpu.thread])
  · intro c' stack' pc'' _ hrun
    exact absurd (cpu_thread hrun) (hnone c')
  · intro hrest
    simp at hrest
  · intro hready
    simp at hready
  · intro z stack' pc'' heq
    cases heq
    exact ⟨hs.holdsAt (h.saved x (Or.inl hx) hnone), fun _ => state_switchTo s c x⟩

theorem held_exit (h : Held s) (hcpu : s.cpu c = .run x stack (.code (.work .exit)))
    (hreleased : s.released x) (halone : s.alone c x.1)
    (hidle : ∀ i, (x.1, i) ≠ x → s.idle (x.1, i)) : Held (exit s c x stack) := by
  obtain ⟨hbusy, hout, -⟩ := exit_kept s c x stack
  have htold := h.wake (exit_others s c x stack) (.of_eq rfl rfl fun _ => rfl)
  refine htold.mark hcpu hreleased halone hidle
    (.of_eq hbusy hout fun p => (exit_proc s c x stack p).1) (fun y hy => ?_) (fun y hy => ?_)
    (exit_cpu s c x stack)
  · exact (if_neg hy).symm
  · rw [State.state, exit_own hy]
    split
    · exact Or.inl ‹_›
    · exact Or.inr rfl

theorem held_step {a : Act n} (hinv : Inv s) (h : Held s) (hguard : Orderly s a)
    (hstep : step s a = some s') : Held s' := by
  obtain ⟨hcalm, hexit, hleave⟩ := hguard
  have hembryo : ∀ {x y stack pc}, s.cpu a.cpu = .run x stack pc → pc.makes = some y →
      ProcState.resting (s.state y) := fun hcpu hy =>
    Or.inr (Or.inl ((hinv.refs _ _ _ _ hcpu).makes _ hy).1)
  have hzombie : ∀ {x y stack pc}, s.cpu a.cpu = .run x stack pc → pc.reaps = some y →
      ProcState.resting (s.state y) := fun hcpu hy =>
    Or.inr (Or.inr ((hinv.refs _ _ _ _ hcpu).reaps _ hy))
  cases effect_step hstep with
  | moves x stack pc pc' _ hcpu hkept hcpu' hmoves =>
    have hat := (h.running _ x stack pc hcpu).1
    have hs : Fewer s s' := .of_eq hkept.busy hkept.outstanding hkept.maker
    refine h.goto hs hcpu hmoves.settled.1 hcpu'
      (fun y => by rw [State.state, hkept.thread, State.state]) (fun y => by rw [hkept.thread])
      (hs.holdsAt ⟨fun hpc' => ?_, fun p hp => hmoves.forks ▸ hat.forks p hp⟩)
    by_cases hpc : pc.works = true
    · exact hmoves.works hpc hpc'
    · exact hat.released (by simpa using hpc)
  | acquire hcpu | release hcpu =>
    exact h.move (.of_eq rfl rfl fun _ => rfl) (fun _ => rfl) (fun _ => rfl) rfl
      (by rw [hcpu]; rfl) (fun _ _ _ heq => by cases heq)
  | switchTo x hcpu hx => exact held_switchTo hinv h hcpu hx
  | wakeup chan => exact h.wake (wakes_wakeup1 s _) (.of_eq rfl rfl fun _ => rfl)
  | take x stack mode hold hcpu =>
    refine h.take hcpu (fun c' hrun => hinv.unique c' _ x hrun (cpu_thread hcpu)) ?_ rfl rfl rfl
    intro z hz hreleased
    refine ⟨fun e he => ?_, hreleased.2⟩
    rcases List.mem_cons.mp he with rfl | he
    · exact Ne.symm hz
    · exact hreleased.1 e he
  | beginOp x stack mode hcpu =>
    refine h.take hcpu (fun c' hrun => hinv.unique c' _ x hrun (cpu_thread hcpu)) ?_ rfl rfl rfl
    intro z hz hreleased
    exact ⟨hreleased.1, fun hmem => (List.mem_cons.mp hmem).elim hz hreleased.2⟩
  | drop x hold =>
    have hs : Fewer s { s with busy := s.busy.erase (hold, x) } :=
      ⟨fun z hz => ⟨fun e he => hz.1 e (List.mem_of_mem_erase he), hz.2⟩, fun _ _ hp => hp⟩
    exact h.wake (.of_eq rfl rfl rfl rfl rfl) hs
  | endOp x =>
    have hs : Fewer s { s with outstanding := s.outstanding.erase x } :=
      ⟨fun z hz => ⟨hz.1, fun hmem => hz.2 (List.mem_of_mem_erase hmem)⟩, fun _ _ hp => hp⟩
    exact h.wake (.of_eq rfl rfl rfl rfl rfl) hs
  | yield x stack k hcpu =>
    have hat := (h.running _ x stack _ hcpu).1
    refine h.leave hinv (.of_eq rfl rfl fun _ => rfl) hcpu (yield_thread s _ x stack k) rfl
      (by simp) (hat.congr (fun hpc => ?_) rfl)
    cases k <;> exact hpc
  | sleep x stack chan k hcpu =>
    have hat := (h.running _ x stack _ hcpu).1
    refine h.leave hinv (.of_eq rfl rfl fun _ => rfl) hcpu (sleep_thread s _ x stack chan k) rfl
      (by simp) (hat.congr (fun hpc => ?_) rfl)
    cases k <;> exact hpc
  | waitSleep x stack pc hcpu hpc =>
    have hat := (h.running _ x stack _ hcpu).1
    refine h.leave hinv (.of_eq rfl rfl fun _ => rfl) hcpu (waitSleep_thread s _ x stack) rfl
      (by simp) ?_
    rcases hpc with ⟨rfl, -⟩ | rfl <;> exact hat.congr (by simp [Pc.works]) rfl
  | waitReap x stack pc q hcpu hpc hq hgood =>
    have hat := (h.running _ x stack _ hcpu).1
    have hs : Fewer s (waitReap s a.cpu x stack q) :=
      .of_eq rfl rfl (field_update Proc.maker rfl)
    refine h.goto hs hcpu (hpc.plain x).1 rfl (fun y => ?_) (fun y => ?_)
      (hs.holdsAt (hat.congr (fun _ => rfl) ?_))
    · simp only [waitReap, returnTo, State.setCpu, State.setProc, State.state]
      split <;> rfl
    · simp only [waitReap, returnTo, State.setCpu, State.setProc]
      split <;> rfl
    · rcases hpc with ⟨rfl, -⟩ | rfl <;> rfl
  | allocproc x stack p hcpu hp => exact h.allocproc hinv hcpu hp
  | allocAbandoned x stack p hcpu =>
    exact h.goto (.of_done rfl rfl rfl rfl) hcpu rfl rfl (fun _ => rfl) (fun _ => rfl)
      ((h.running _ x stack _ hcpu).1.done (y := (p, thread0)) rfl rfl rfl rfl rfl rfl)
  | allocFound x stack p i rest caller hcpu hi =>
    exact h.tend (Or.inl hi) (.of_eq rfl rfl fun _ => rfl) hcpu rfl rfl rfl (by simp [Pc.works])
      (by cases caller <;> rfl)
  | allocTid x stack y tid caller hcpu =>
    exact h.tend (hembryo hcpu rfl) (.of_eq rfl rfl fun _ => rfl) hcpu rfl rfl rfl
      (by simp [Pc.works]) (by cases caller <;> rfl)
  | stackReady x stack y caller page hcpu hpage hfree =>
    exact h.tend (hembryo hcpu rfl) (.of_eq rfl rfl fun _ => rfl) hcpu rfl rfl rfl
      (by simp [Pc.works]) (by cases caller <;> rfl)
  | stackFailed x stack y caller hcpu =>
    cases caller with
    | kthreadCreate =>
      exact h.tend (hembryo hcpu rfl) (.of_eq rfl rfl fun _ => rfl) hcpu rfl rfl rfl
        (fun _ => rfl) rfl
    | fork => exact h.done (hembryo hcpu rfl) hcpu ⟨rfl, rfl⟩ rfl rfl rfl rfl rfl rfl rfl
  | kthreadCreate x stack y hcpu =>
    exact h.tend (hembryo hcpu rfl) (.of_eq rfl rfl fun _ => rfl) hcpu rfl rfl rfl
      (fun _ => rfl) rfl
  | forkFailed x stack y hcpu | forkDone x stack y hcpu =>
    exact h.done (hembryo hcpu rfl) hcpu ⟨rfl, rfl⟩ rfl rfl rfl rfl rfl rfl rfl
  | exit x stack hcpu hcmd hreleased hfree =>
    simp only [Calm, hcpu, hcmd] at hcalm
    exact held_exit h hcpu hreleased hcalm (hexit (by rw [hcmd]; rfl) x (by rw [hcpu]; rfl))
  | exited x stack hcpu =>
    have hat := (h.running _ x stack _ hcpu).1
    exact h.leave hinv (.of_eq rfl rfl fun _ => rfl) hcpu rfl rfl (fun _ => hat.idle rfl rfl)
      (hat.congr (by simp [Pc.works]) rfl)
  | kthreadExit x stack hcpu hfree =>
    have hat := (h.running _ x stack _ hcpu).1
    have hs : Fewer s (kthreadExit s a.cpu x stack) := .of_eq rfl rfl fun _ => rfl
    have hidle := hat.idle rfl rfl
    refine h.store hs rfl rfl ?_ ?_ (fun _ => hs.idle hidle) (by simp) ?_
    · intro z hz _
      rwa [cpu_thread hcpu] at hz
    · intro c' stack' pc'' hne hrun
      exact absurd (hinv.unique c' _ x (cpu_thread hrun) (cpu_thread hcpu)) hne
    · intro z stack' pc'' heq
      cases heq
      exact ⟨holdsAt_of_idle (hs.idle hidle), fun hsettled => by cases hsettled⟩
  | kthreadExitEnd x stack hcpu =>
    have hlive := hleave x (by rw [hcpu]; rfl)
    have hwakes := wakes_wakeup2 s x.1 (some (.thread x))
    have hwoken := h.wake hwakes (.of_eq rfl rfl fun _ => rfl)
    have hat := (hwoken.running _ x stack _ hcpu).1
    rw [kthreadExitEnd, if_neg hlive.ne']
    exact hwoken.leave (hinv.wake hwakes) (.of_eq rfl rfl fun _ => rfl) hcpu rfl rfl
      (fun _ => hat.idle rfl rfl) (hat.congr (by simp [Pc.works]) rfl)
  | joinDone x stack y id hcpu hy =>
    have hs : Fewer s (joinDone s a.cpu x stack id) := .of_eq rfl rfl fun _ => rfl
    exact h.goto hs hcpu rfl rfl (fun _ => rfl) (fun _ => rfl)
      (hs.holdsAt ((h.running _ x stack _ hcpu).1.congr (fun _ => rfl) rfl))
  | joinReap x stack y id looped hcpu | execReap x stack y rest threadsAlive hcpu =>
    exact h.tend (hzombie hcpu rfl) (.of_eq rfl rfl fun _ => rfl) hcpu rfl rfl rfl
      (by simp [Pc.works]) rfl
  | execWake x stack y rest hcpu =>
    simp only [Calm, hcpu, step_go hcpu (by simp) hstep] at hcalm
    have hwoken := h.wake (wakes_setState hcalm) (.of_eq rfl rfl fun _ => rfl)
    have hs : Fewer (s.setState y .runnable)
        ((s.setState y .runnable).setCpu a.cpu (.run x stack (.execScan rest true))) :=
      .of_eq rfl rfl fun _ => rfl
    exact hwoken.goto hs hcpu rfl rfl (fun _ => rfl) (fun _ => rfl)
      (hs.holdsAt ((hwoken.running _ x stack _ hcpu).1.congr (by simp [Pc.works]) rfl))

theorem held_boot (n page : Nat) : Held (boot n page) where
  resting := fun x _ => by
    refine ⟨⟨by simp, by simp⟩, fun p => ?_⟩
    simp only [boot]
    split <;> simp
  running := fun c x stack pc hcpu => by simp at hcpu
  saved := fun x _ _ => by
    refine holdsAt_of_idle ⟨⟨by simp, by simp⟩, fun p => ?_⟩
    simp only [boot]
    split <;> simp

theorem Held.deadHoldNothing (h : Held s) : DeadHoldNothing s where
  busy := fun x _ hx hmem => (h.resting x (Or.inr (Or.inr hx))).1.1 _ hmem rfl
  outstanding := fun x hx => (h.resting x (Or.inr (Or.inr hx))).1.2
  forks := fun x p hx hforks => (h.resting x (Or.inr (Or.inr hx))).2 p hforks.2

theorem dead_thread_holds_nothing {page : Nat} {labels : List (Act n)} {final : State n}
    (hmeets : Meets step Orderly (boot n page) labels)
    (hrun : run step (boot n page) labels = some final) : DeadHoldNothing final := by
  have hkeep : ∀ (s : State n) a next, Inv s ∧ Held s → Orderly s a → step s a = some next →
      Inv next ∧ Held next := by
    rintro s a next ⟨hinv, hheld⟩ hguard hstep
    exact ⟨inv_step hinv hguard.1 hstep, held_step hinv hheld hguard hstep⟩
  exact (run_invariant hkeep ⟨inv_boot n page, held_boot n page⟩ hmeets hrun).2.deadHoldNothing

/-- A thread is asleep in the middle of a transaction and goes on; its sibling
exits only after that. -/
def exitAfterTransaction : List (Act 1) :=
  twoThreads onlyCpu ++ on onlyCpu [.tick, .go, .pick (proc1, thread1), .call .other, .beginOp,
    .take (.inode 7), .sleep 9, .go, .pick (proc1, thread0), .wakeup 9, .tick, .go,
    .pick (proc1, thread1), .drop (.inode 7), .endOp, .ret, .tick, .go, .pick (proc1, thread0),
    .call .exit, .beginOp, .endOp, .exit, .go]

theorem dead_thread_holds_nothing_exit_after_transaction :
    ∃ final, run step (boot 1 1) exitAfterTransaction = some final ∧
      final.state (proc1, thread1) = .zombie ∧ DeadHoldNothing final := by
  obtain ⟨final, hfinal, hstate⟩ : ∃ final,
      run step (boot 1 1) exitAfterTransaction = some final ∧
      final.state (proc1, thread1) = .zombie := by
    decide +kernel
  exact ⟨final, hfinal, hstate, dead_thread_holds_nothing (by decide +kernel) hfinal⟩

/-- The same, but the sibling exits while the thread is asleep. -/
def exitInTransaction : List (Act 1) :=
  twoThreads onlyCpu ++ on onlyCpu [.tick, .go, .pick (proc1, thread1), .call .other, .beginOp,
    .take (.inode 7), .take (.buf 3), .sleep 9, .go, .pick (proc1, thread0), .call .exit, .beginOp,
    .endOp, .exit, .go]

theorem zombie_holds_buffer_inode_and_log :
    ∃ final, run step (boot 1 1) exitInTransaction = some final ∧
      final.state (proc1, thread1) = .zombie ∧ (.buf 3, (proc1, thread1)) ∈ final.busy ∧
      (.inode 7, (proc1, thread1)) ∈ final.busy ∧ (proc1, thread1) ∈ final.outstanding := by
  decide +kernel

end Xv6.Kernel
