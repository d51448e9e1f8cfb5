import Xv6.Kernel.Effect

/-! Every step of a run that meets `Calm` keeps the invariant. Most steps only
move the CPU to its next position. -/
namespace Xv6.Kernel
open Function Transition Lock

variable {n : Nat} {s s' : State n} {c : Fin n} {x y : Slot} {stack : Nat} {pc pc' : Pc}
  {p : Fin nproc} {v : Cpu}

attribute [local simp] State.setCpu State.setThread State.setProc State.setTable State.setState
  returnTo boot ProcState.dead forkFailed

/-- What the invariant says of threads and processes stays, but that sleeping
threads may become `RUNNABLE`. -/
structure Woken (s s' : State n) : Prop where
  state : ∀ y, s'.state y = s.state y ∨ (s.state y = .sleeping ∧ s'.state y = .runnable)
  other : ∀ y, (s'.thread y).maker = (s.thread y).maker ∧
    (s'.thread y).context = (s.thread y).context
  proc : ∀ p, s'.pstate p = s.pstate p ∧ (s'.proc p).maker = (s.proc p).maker

namespace Woken

variable (hs : Woken s s')
include hs

theorem state_eq {st : ProcState} (hst : st ≠ .sleeping) (hst' : st ≠ .runnable) :
    s'.state y = st ↔ s.state y = st := by
  rcases hs.state y with heq | ⟨hsleeping, hrunnable⟩
  · rw [heq]
  · rw [hsleeping, hrunnable]
    exact ⟨fun hr => absurd hr.symm hst', fun hr => absurd hr.symm hst⟩

theorem dead : ProcState.dead (s'.state y) ↔ ProcState.dead (s.state y) := by
  simp only [ProcState.dead, hs.state_eq (by decide : ProcState.unused ≠ .sleeping) (by decide),
    hs.state_eq (by decide : ProcState.zombie ≠ .sleeping) (by decide)]

theorem ready (hready : s'.ready y) : s.ready y := by
  rcases hs.state y with heq | ⟨hsleeping, -⟩
  · rwa [State.ready, heq] at hready
  · exact Or.inr hsleeping

theorem pstate (p : Fin nproc) : s'.pstate p = s.pstate p :=
  (hs.proc p).1

theorem refs (h : Refs s x pc) : Refs s' x pc where
  near := h.near
  makes := fun y hy => by
    rw [hs.state_eq (by decide) (by decide), (hs.other y).1]
    exact h.makes y hy
  readies := fun y hy => by
    rw [(hs.other y).2]
    exact h.readies y hy
  forks := fun p hp => by
    obtain ⟨hstate, hmaker, hthreads⟩ := h.forks p hp
    refine ⟨(hs.pstate p).trans hstate, (hs.proc p).2.trans hmaker, fun i hlive => hthreads i ?_⟩
    rwa [hs.dead] at hlive
  reaps := fun y hy => (hs.state_eq (by decide) (by decide)).mpr (h.reaps y hy)

theorem running (h : Inv s) (hcpu : s.cpu c = .run x stack pc) (hsettled : pc.settled = true) :
    s'.state x = s.state x := by
  refine (hs.state x).resolve_right fun hwoken => ?_
  have hrunning := h.running c x stack pc hcpu hsettled
  simp [hwoken.1] at hrunning

theorem lives (h : Inv s) : Lives s' := by
  intro x hx
  rw [hs.pstate, hs.state_eq (by decide) (by decide)]
  exact h.lives x fun hdead => hx (hs.dead.mpr hdead)

theorem saved (h : Inv s) (hready : s'.ready x) (hnone : ∀ c, (s.cpu c).thread ≠ some x) :
    Refs s' x (s'.thread x).context.resume.pc := by
  rw [(hs.other x).2]
  exact hs.refs (h.saved x (hs.ready hready) hnone)

end Woken

theorem Inv.woken (h : Inv s) (hs : Woken s s') (hcpu : s'.cpu = s.cpu)
    (htable : s'.ptlock = s.ptlock) (hlock : s'.lock = s.lock) : Inv s' where
  table := by
    rw [htable, hcpu]
    exact h.table
  locks := by
    rw [hlock, hcpu]
    exact h.locks
  unique := by
    rw [hcpu]
    exact h.unique
  running := fun c z stack' pc'' hrun hsettled => by
    rw [hcpu] at hrun
    rw [hs.running h hrun hsettled]
    exact h.running c z stack' pc'' hrun hsettled
  last := fun c z stack' pc'' hrun => by
    simp only [hs.dead, hcpu]
    exact h.last c z stack' pc'' (hcpu ▸ hrun)
  lives := hs.lives h
  alive := fun c z stack' pc'' hrun => by
    rw [hs.pstate]
    exact h.alive c z stack' pc'' (hcpu ▸ hrun)
  refs := fun c z stack' pc'' hrun => hs.refs (h.refs c z stack' pc'' (hcpu ▸ hrun))
  saved := fun _ hready hnone => hs.saved h hready (hcpu ▸ hnone)

theorem Inv.shift (h : Inv s) (hs : Woken s s') (hcpu' : s'.cpu = update s.cpu c v)
    (hthread : v.thread = (s.cpu c).thread)
    (hlocked : Locked s')
    (hv : ∀ x stack pc, v = .run x stack pc → Arrives s s' c x pc) : Inv s' := by
  refine h.advance hcpu' hlocked (fun c' z stack' pc'' _ hrun => ?_) (hs.lives h) ?_ hv
  · exact ⟨hs.running h hrun, fun _ _ _ hdead => hs.dead.mpr hdead, hs.pstate z.1, hs.refs⟩
  · intro z hready hnone
    exact hs.saved h hready (off_of_off hcpu' hthread.trans hnone)

/-- The two states agree on what the invariant says of threads and processes. -/
structure Same (s s' : State n) : Prop where
  thread : ∀ y, (s'.thread y).state = (s.thread y).state ∧
    (s'.thread y).maker = (s.thread y).maker ∧ (s'.thread y).context = (s.thread y).context
  proc : ∀ p, (s'.proc p).state = (s.proc p).state ∧ (s'.proc p).maker = (s.proc p).maker

namespace Same

theorem of_eq (hthread : s'.thread = s.thread) (hproc : s'.proc = s.proc) : Same s s' where
  thread := fun _ => by simp [hthread]
  proc := fun _ => by simp [hproc]

theorem of_thread {t : Thread} (hthread : s'.thread = update s.thread y t)
    (hproc : s'.proc = s.proc) (hstate : t.state = (s.thread y).state)
    (hmaker : t.maker = (s.thread y).maker) (hcontext : t.context = (s.thread y).context) :
    Same s s' where
  thread := fun y' => by
    rw [hthread]
    by_cases hy : y' = y
    · subst hy
      simp [hstate, hmaker, hcontext]
    · simp [update_of_ne hy]
  proc := fun _ => by simp [hproc]

variable (hs : Same s s')
include hs

theorem state (y : Slot) : s'.state y = s.state y :=
  (hs.thread y).1

theorem woken : Woken s s' :=
  ⟨fun y => Or.inl (hs.state y), fun y => (hs.thread y).2, hs.proc⟩

end Same

theorem Inv.arrives (h : Inv s) (hcpu : s.cpu c = .run x stack pc)
    (hrunning : pc'.settled = true →
      s'.state x = .running ∨ (ProcState.dead (s'.state x) ∧ pc'.exits = true))
    (hlast : pc'.exits = true → ProcState.dead (s'.state x) →
      (∀ i, ProcState.dead (s'.state (x.1, i))) ∧
        ∀ c' y, c' ≠ c → (s.cpu c').thread = some y → y.1 ≠ x.1)
    (halive : s'.pstate x.1 = .runnable ∨ (s'.pstate x.1 = .zombie ∧ pc' = .exited))
    (hrefs : Refs s' x pc') : Arrives s s' c x pc' :=
  ⟨Or.inl (cpu_thread hcpu), fun c' hne hrun => hne (h.unique c' c x hrun (cpu_thread hcpu)),
    hrunning, hlast, halive, hrefs⟩

theorem Inv.arrives_running (h : Inv s) (hcpu : s.cpu c = .run x stack pc)
    (hrunning : s'.state x = .running) (halive : s'.pstate x.1 = .runnable)
    (hrefs : Refs s' x pc') : Arrives s s' c x pc' :=
  h.arrives hcpu (fun _ => Or.inl hrunning) (fun _ hdead => by simp [hrunning] at hdead)
    (Or.inl halive) hrefs

theorem Inv.runnable (h : Inv s) (hcpu : s.cpu c = .run x stack pc) (hsettled : pc.settled = true) :
    s.pstate x.1 = .runnable := by
  refine (h.alive c x stack pc hcpu).resolve_right fun hexited => ?_
  rw [hexited.2] at hsettled
  cases hsettled

theorem Inv.move (h : Inv s) (hs : Same s s') (hcpu : s.cpu c = .run x stack pc)
    (hcpu' : s'.cpu = update s.cpu c (.run x stack pc'))
    (hlocked : Locked s')
    (hsettled : pc.settled = true)
    (hexits : ProcState.dead (s.state x) → pc.exits = true → pc'.exits = true)
    (hrefs : Refs s x pc') : Inv s' := by
  have hstate := h.running c x stack pc hcpu hsettled
  refine h.shift hs.woken hcpu' (cpu_thread hcpu).symm hlocked ?_
  intro z stack' pc'' heq
  cases heq
  refine h.arrives hcpu (fun _ => ?_) (fun _ hdead => ?_) ?_ (hs.woken.refs hrefs)
  · rw [hs.state]
    exact hstate.imp_right fun hzombie => ⟨hzombie.1, hexits hzombie.1 hzombie.2⟩
  · simp only [hs.state] at hdead ⊢
    have hboth := hstate.resolve_left fun hrunning => by simp [hrunning] at hdead
    obtain ⟨hall, halone⟩ := h.last c x stack pc hcpu hboth.2 hdead
    exact ⟨hall, fun c' y hne hrun hy => hne (halone c' y hrun hy)⟩
  · rw [hs.woken.pstate]
    exact Or.inl (h.runnable hcpu hsettled)

theorem Inv.congr (h : Inv s) (hs : Same s s') (hcpu : s'.cpu = s.cpu)
    (htable : s'.ptlock = s.ptlock) (hlock : s'.lock = s.lock) : Inv s' :=
  h.woken hs.woken hcpu htable hlock

theorem Wakes.woken (hs : Wakes s s') : Woken s s' := by
  refine ⟨fun y => ?_, fun y => ?_, fun p => by simp [State.pstate, hs.proc]⟩
  · rcases hs.thread y with heq | ⟨hsleeping, heq⟩
    · exact Or.inl (by rw [State.state, heq, State.state])
    · exact Or.inr ⟨hsleeping, by rw [State.state, heq]⟩
  · rcases hs.thread y with heq | ⟨-, heq⟩ <;> simp [heq]

theorem Inv.wake (h : Inv s) (hs : Wakes s s') : Inv s' :=
  h.woken hs.woken hs.cpu hs.ptlock hs.lock

section

variable (h : Inv s) {k : Code}
include h

omit h in
theorem Refs.reaper (hnear : pc.near x) (hmakes : pc.makes = none) (hreadies : pc.readies = none)
    (hforks : pc.forks = none) (hreaps : pc.reaps = some y) (hy : s.state y = .zombie) :
    Refs s x pc where
  near := hnear
  makes := by simp [hmakes]
  readies := by simp [hreadies]
  forks := by simp [hforks]
  reaps := fun y' hy' => by
    cases hreaps.symm.trans hy'
    exact hy

theorem Inv.state_running (hcpu : s.cpu c = .run x stack pc) (hsettled : pc.settled = true)
    (hexits : pc.exits = false) : s.state x = .running := by
  refine (h.running c x stack pc hcpu hsettled).resolve_right fun hzombie => ?_
  simp [hexits] at hzombie

/-! Steps that give up the CPU. -/

theorem Inv.leave {t : Thread} (hcpu : s.cpu c = .run x stack pc)
    (hthread : s'.thread = update s.thread x t) (hproc : s'.proc = s.proc)
    (hcpu' : s'.cpu = update s.cpu c .scheduling) (hlock : s'.lock = s.lock)
    (hheld : pc.lock x = none)
    (htable : (pc.table = true ∧ s'.ptlock = s.ptlock) ∨ (s.ptlock = none ∧ s'.ptlock = some c))
    (hw : Written s c (some x) x t)
    (hlives : ¬ ProcState.dead t.state →
      s.pstate x.1 = .runnable ∨ (s.pstate x.1 = .embryo ∧ t.state = .embryo))
    (hready : t.state = .runnable ∨ t.state = .sleeping →
      Refs s' x t.context.resume.pc) : Inv s' := by
  have hproc' : s'.proc = update s.proc x.1 (s.proc x.1) := by
    rw [update_eq_self, hproc]
  have hself : s'.state x = t.state := by rw [State.state, hthread, update_self]
  refine h.write hthread hproc' hcpu' hw (Inv.pwritten_same rfl rfl) ?_ ⟨?_, ?_⟩ ?_ ?_ ?_ ?_
  · rintro z hz
    cases hz
    exact cpu_thread hcpu
  · rw [hcpu']
    rcases htable with ⟨hpc, heq⟩ | ⟨hfree, heq⟩
    · rw [heq]
      exact h.locked.table_keep (by rw [hcpu]; exact hpc.symm)
    · rw [heq]
      exact h.locked.table_acquire hfree rfl
  · rw [hlock, hcpu']
    exact h.locked.locks_keep (by rw [hcpu]; exact hheld.symm)
  · intro z hz hne
    rw [cpu_thread hcpu] at hz
    cases hz
    exact absurd rfl hne
  · intro z hz
    rw [State.pstate, hproc]
    by_cases hzx : z = x
    · subst hzx
      rw [hself] at hz ⊢
      exact hlives hz
    · rw [State.state, hthread, update_of_ne hzx] at hz ⊢
      exact h.lives z hz
  · intro hx _
    rw [State.ready, hself] at hx
    exact hready hx
  · intro _ _ _ heq
    cases heq

theorem Inv.refs_leave {t : Thread} (hcpu : s.cpu c = .run x stack pc)
    (hthread : s'.thread = update s.thread x t) (hproc : s'.proc = s.proc)
    (hsettled : pc.settled = true) (hmakes : pc'.makes = pc.makes)
    (hreadies : pc'.readies = pc.readies) (hforks : pc'.forks = pc.forks)
    (hreaps : pc'.reaps = none) (hnear : pc'.near x) : Refs s' x pc' := by
  have hold := (h.refs c x stack pc hcpu).congr hmakes hreadies hforks hreaps hnear
  have hproc' : s'.proc = update s.proc x.1 (s.proc x.1) := by
    rw [update_eq_self, hproc]
  refine hold.written (m := none) (h.written_own hcpu hsettled) (Inv.pwritten_same rfl rfl)
    (by simp) hthread hproc' (by simp [hreaps])

omit h in
theorem yield_thread (s : State n) (c : Fin n) (x : Slot) (stack : Nat) (k : Code) :
    (sched ((s.setState x .runnable).setTable (some c)) c x stack (.yielded k)).thread =
      update s.thread x
        { s.thread x with state := .runnable, context := ⟨stack, .yielded k⟩ } := by
  simp [sched]

omit h in
theorem sleep_thread (s : State n) (c : Fin n) (x : Slot) (stack : Nat) (chan : Chan) (k : Code) :
    (sleep s c x stack chan k).thread = update s.thread x
      { s.thread x with
        state := .sleeping, chan := some chan, context := ⟨stack, .slept k⟩ } := by
  simp [sleep, sched]

omit h in
theorem waitSleep_thread (s : State n) (c : Fin n) (x : Slot) (stack : Nat) :
    (waitSleep s c x stack).thread = update s.thread x
      { s.thread x with
        state := .sleeping, chan := some (.proc x.1), context := ⟨stack, .waiting⟩ } := by
  simp [waitSleep, sched]

theorem inv_yield (hcpu : s.cpu c = .run x stack (.yielding k)) (hfree : s.ptlock = none) :
    Inv (sched ((s.setState x .runnable).setTable (some c)) c x stack (.yielded k)) := by
  have hthread := yield_thread s c x stack k
  have hnear := (h.refs c x stack _ hcpu).near
  exact h.leave hcpu hthread rfl rfl rfl rfl (Or.inr ⟨hfree, rfl⟩) (h.written_own hcpu rfl)
    (fun _ => Or.inl (h.runnable hcpu rfl))
    (fun _ => h.refs_leave hcpu hthread rfl rfl rfl rfl rfl rfl hnear)

theorem inv_sleep {chan : Chan} (hcpu : s.cpu c = .run x stack (.sleeping chan k)) :
    Inv (sleep s c x stack chan k) := by
  have hthread := sleep_thread s c x stack chan k
  have hnear := (h.refs c x stack _ hcpu).near
  exact h.leave hcpu hthread rfl rfl rfl rfl (Or.inl ⟨rfl, rfl⟩) (h.written_own hcpu rfl)
    (fun _ => Or.inl (h.runnable hcpu rfl))
    (fun _ => h.refs_leave hcpu hthread rfl rfl rfl rfl rfl rfl hnear)

theorem inv_switch (hcpu : s.cpu c = .run x stack pc) (htable : pc.table = true)
    (hheld : pc.lock x = none) : Inv (sched s c x stack .zombie) :=
  h.leave hcpu rfl rfl rfl rfl hheld (Or.inl ⟨htable, rfl⟩) (h.written_same rfl rfl (Or.inr rfl))
    (fun hlive => h.lives x hlive) (fun _ => .plain trivial rfl rfl rfl rfl)

theorem Inv.turn (hcpu : (s.cpu c).thread = none) (hv : v.thread = none)
    (hthread : s'.thread = s.thread) (hproc : s'.proc = s.proc)
    (hcpu' : s'.cpu = update s.cpu c v)
    (hlocked : Locked s') : Inv s' := by
  refine h.shift (Same.of_eq hthread hproc).woken hcpu' (hv.trans hcpu.symm) hlocked ?_
  intro z stack' pc'' heq
  rw [heq] at hv
  cases hv

theorem inv_scheduling (hcpu : s.cpu c = .idle) (hfree : s.ptlock = none) :
    Inv ((s.setTable (some c)).setCpu c .scheduling) :=
  h.turn (by rw [hcpu]; rfl) rfl rfl rfl rfl
    ⟨h.locked.table_acquire hfree rfl, h.locked.locks_keep (by rw [hcpu]; rfl)⟩

theorem inv_idle (hcpu : s.cpu c = .scheduling) : Inv ((s.setTable none).setCpu c .idle) :=
  h.turn (by rw [hcpu]; rfl) rfl rfl rfl rfl
    ⟨h.locked.table_release (by rw [hcpu]; rfl) rfl, h.locked.locks_keep (by rw [hcpu]; rfl)⟩

theorem Inv.off_of_runnable (hcpu : s.cpu c = .scheduling) (hx : s.state x = .runnable)
    (c' : Fin n) : (s.cpu c').thread ≠ some x := by
  intro hrun
  obtain ⟨stack', pc'', hrun⟩ := exists_run hrun
  by_cases hc' : c' = c
  · simp [hc', hcpu] at hrun
  · have hsettled := h.settled_of_table (c := c) (by rw [hcpu]; rfl) hrun hc'
    have hrunning := h.running c' x stack' pc'' hrun hsettled
    simp [hx] at hrunning

omit h in
theorem state_switchTo (s : State n) (c : Fin n) (x : Slot) :
    (switchTo s c x).state x = .running := by
  simp [switchTo, State.state]

theorem inv_switchTo (hcpu : s.cpu c = .scheduling) (hx : s.state x = .runnable) :
    Inv (switchTo s c x) := by
  have hproc : (switchTo s c x).proc = update s.proc x.1 (s.proc x.1) := by
    rw [update_eq_self]
    rfl
  have hnone := h.off_of_runnable hcpu hx
  have hself := state_switchTo s c x
  have hlives : s.pstate x.1 = .runnable := by
    refine (h.lives x (by simp [hx])).resolve_right fun hembryo => ?_
    simp [hx] at hembryo
  have hrefs : Refs (switchTo s c x) x (s.thread x).context.resume.pc :=
    (h.saved x (Or.inl hx) hnone).written (c := c) (m := none) (h.written_runnable hx)
      (Inv.pwritten_same rfl rfl) (by simp) rfl hproc (by simp [resume_reaps])
  refine h.write (m := none) rfl hproc rfl (h.written_runnable hx) (Inv.pwritten_same rfl rfl)
    (by simp) ⟨?_, ?_⟩ ?_ ?_ ?_ ?_
  · by_cases htable : (s.thread x).context.resume.pc.table = true
    · have hpt : (switchTo s c x).ptlock = s.ptlock := by
        have hheld : s.ptlock = some c := (h.table c).mpr (by rw [hcpu]; rfl)
        simp [switchTo, htable, hheld]
      rw [hpt]
      exact h.locked.table_keep (by rw [hcpu]; exact htable)
    · have hpt : (switchTo s c x).ptlock = none := by
        simp [switchTo, htable]
      rw [hpt]
      exact h.locked.table_release (by rw [hcpu]; rfl) (by simpa [Cpu.table] using htable)
  · refine h.locked.locks_keep ?_
    rw [hcpu]
    cases (s.thread x).context.resume <;> rfl
  · intro z hz
    exact absurd hz (by rw [hcpu]; simp [Cpu.thread])
  · intro z hz
    by_cases hzx : z = x
    · subst hzx
      exact Or.inl hlives
    · have hstay : (switchTo s c x).thread z = s.thread z := update_of_ne hzx _ _
      rw [State.state, hstay] at hz ⊢
      exact h.lives z hz
  · intro hready
    rw [State.ready, hself] at hready
    simp at hready
  · intro z stack' pc'' heq
    cases heq
    refine ⟨Or.inr (by simp [hx]), fun c' _ => hnone c', fun _ => Or.inl hself, ?_,
      Or.inl hlives, hrefs⟩
    intro _ hdead
    simp [hself] at hdead

end

variable {z : Slot}

theorem Code.makes_where {k : Code} (hy : k.makes = some y) (hnear : k.near z) :
    k.forks = some y.1 ∨ y.1 = z.1 := by
  cases k <;> simp only [Code.makes, Option.some.injEq, reduceCtorEq] at hy <;> subst hy
  case kalloc y caller =>
    cases caller
    · exact Or.inr hnear
    · exact Or.inl rfl
  case created => exact Or.inr hnear
  case copyuvm => exact Or.inl rfl
  case copied => exact Or.inl rfl

theorem Refs.makes_where (hrefs : Refs s z pc) (hy : pc.makes = some y) :
    y.1 = z.1 ∨ s.pstate y.1 = .embryo := by
  have hnear := hrefs.near
  have hwhere : pc.forks = some y.1 ∨ y.1 = z.1 := by
    cases pc <;> simp only [Pc.makes, Option.some.injEq, reduceCtorEq] at hy
    case code k => exact Code.makes_where hy hnear
    case yielding k => exact Code.makes_where hy hnear
    case sleeping chan k => exact Code.makes_where hy hnear
    case allocTid y' tid caller =>
      subst hy
      cases caller
      · exact Or.inr hnear
      · exact Or.inl rfl
  exact hwhere.symm.imp_right fun hforks => (hrefs.forks y.1 hforks).1

/-- The threads of process `p`, which runs on no other CPU, all end up dead. -/
structure Sweeps (s s' : State n) (c : Fin n) (p : Fin nproc) : Prop where
  thread : ∀ y, y.1 ≠ p → s'.thread y = s.thread y
  dead : ∀ y, y.1 = p → ProcState.dead (s'.state y)
  proc : ∀ p', p' ≠ p → s'.pstate p' = s.pstate p' ∧ (s'.proc p').maker = (s.proc p').maker
  alone : ∀ c' z, c' ≠ c → (s.cpu c').thread = some z → z.1 ≠ p
  made : s.pstate p ≠ .embryo

theorem Sweeps.refs (hs : Sweeps s s' c p) (hrefs : Refs s z pc) (hz : z.1 ≠ p)
    (hreaps : ∀ y, pc.reaps = some y → y.1 = z.1) : Refs s' z pc := by
  have hmade : ∀ {y}, pc.makes = some y → y.1 ≠ p := by
    intro y hy heq
    rcases hrefs.makes_where hy with hown | hembryo
    · exact hz (hown ▸ heq)
    · exact hs.made (heq ▸ hembryo)
  refine ⟨hrefs.near, fun y hy => ?_, fun y hy => ?_, fun p' hp' => ?_, fun y hy => ?_⟩
  · rw [State.state, hs.thread y (hmade hy)]
    exact hrefs.makes y hy
  · rw [hs.thread y (hmade (makes_of_readies hy))]
    exact hrefs.readies y hy
  · obtain ⟨hstate, hmaker, hthreads⟩ := hrefs.forks p' hp'
    have hp'p : p' ≠ p := by
      rintro rfl
      exact hs.made hstate
    obtain ⟨hstate', hmaker'⟩ := hs.proc p' hp'p
    refine ⟨hstate'.trans hstate, hmaker'.trans hmaker, fun i hlive => hthreads i ?_⟩
    rwa [State.state, hs.thread (p', i) hp'p] at hlive
  · rw [State.state, hs.thread y (hreaps y hy ▸ hz)]
    exact hrefs.reaps y hy

theorem Inv.sweep (h : Inv s) (hs : Sweeps s s' c p) (hcpu : s.cpu c = .run x stack pc)
    (hcpu' : s'.cpu = update s.cpu c (.run x stack pc'))
    (hlocked : Locked s')
    (hv : Arrives s s' c x pc') : Inv s' := by
  have hstate : ∀ {y}, y.1 ≠ p → s'.state y = s.state y := by
    intro y hy
    rw [State.state, hs.thread y hy, State.state]
  refine h.advance hcpu' hlocked (fun c' z stack' pc'' hc' hrun => ?_) (fun z hz => ?_)
    (fun z hready hnone => ?_) ?_
  · have hz := hs.alone c' z hc' (cpu_thread hrun)
    refine ⟨fun _ => hstate hz, fun _ _ i hdead => ?_, (hs.proc z.1 hz).1, fun hrefs => ?_⟩
    · rwa [hstate (y := (z.1, i)) hz]
    · exact hs.refs hrefs hz fun y hy => (h.reaps_lock hrun hy).1
  · by_cases hzp : z.1 = p
    · exact absurd (hs.dead z hzp) hz
    · rw [hstate hzp] at hz ⊢
      rw [(hs.proc z.1 hzp).1]
      exact h.lives z hz
  · have hz : z.1 ≠ p := by
      intro hzp
      have hdead := hs.dead z hzp
      rcases hready with hrunnable | hsleeping <;> simp_all
    rw [State.ready, hstate hz] at hready
    rw [hs.thread z hz]
    have hnone' := off_of_off hcpu' (cpu_thread hcpu).symm.trans hnone
    refine hs.refs (h.saved z hready hnone') hz fun y hy => ?_
    rw [resume_reaps] at hy
    cases hy
  · intro z stack' pc'' heq
    cases heq
    exact hv

section

variable (h : Inv s)
include h

theorem Inv.lock_free (hp : s.pstate p = .unused) : s.lock p = none := by
  by_contra hheld
  obtain ⟨c', hc'⟩ := Option.ne_none_iff_exists'.mp hheld
  have hlock := (h.locks p c').mp hc'
  cases hcpu : s.cpu c' with
  | idle | scheduling => simp [hcpu, Cpu.lock] at hlock
  | run z stack' pc'' =>
    have halive := h.alive c' z stack' pc'' hcpu
    have hrefs := h.refs c' z stack' pc'' hcpu
    have hnear := hrefs.near
    have hmakes := hrefs.makes
    have hforks := hrefs.forks
    simp only [hcpu, Cpu.lock] at hlock
    cases pc'' <;> simp only [Pc.lock, Option.some.injEq, reduceCtorEq] at hlock
    case allocScan p' rest caller =>
      subst hlock
      cases caller
      · simp only [Pc.near] at hnear
        subst hnear
        simp [hp] at halive
      · have hembryo := (hforks p' rfl).1
        simp [hp] at hembryo
    case allocTid y tid caller =>
      subst hlock
      have hlives := h.lives y (by simp [(hmakes y rfl).1])
      simp [hp] at hlives
    case panic why => cases why <;> simp at hlock <;> simp [hlock, hp] at halive
    all_goals
      subst hlock
      simp [hp] at halive

theorem inv_allocprocAt (hcpu : s.cpu c = .run x stack (.code .allocproc))
    (hunused : s.pstate p = .unused) : Inv (allocprocAt s c x stack p) := by
  have hrunnable := h.runnable hcpu rfl
  have hx : x.1 ≠ p := by
    rintro rfl
    simp [hunused] at hrunnable
  have hdead : ∀ y : Slot, y.1 = p → (if y.1 = p then { s.thread y with state := .unused } else
      s.thread y : Thread).state = .unused := by
    intro y hy
    rw [if_pos hy]
  refine h.sweep (p := p) ⟨fun y hy => if_neg hy, fun y hy => Or.inl (hdead y hy),
    fun p' hp' => ?_, fun c' z _ hrun hz => ?_, by simp [hunused]⟩ hcpu rfl
    ⟨h.locked.table_keep (by rw [hcpu]; rfl), ?_⟩ (h.arrives_running hcpu ?_ ?_ ?_)
  · simp [State.pstate, allocprocAt, State.setLock, update_of_ne hp']
  · obtain ⟨stack', pc'', hrun⟩ := exists_run hrun
    have halive := h.alive c' z stack' pc'' hrun
    simp [hz, hunused] at halive
  · intro p'
    have hlock : update s.lock p none = s.lock := by
      rw [← h.lock_free hunused, update_eq_self]
    simp only [allocprocAt, State.setCpu, State.setLock, hlock]
    exact h.locked.locks_keep (by rw [hcpu]; rfl) p'
  · exact (congrArg Thread.state (if_neg hx)).trans (h.state_running hcpu rfl rfl)
  · simpa [State.pstate, allocprocAt, State.setLock, update_of_ne hx]
      using hrunnable
  · refine ⟨trivial, by simp [Pc.makes, Code.makes], by simp [Pc.readies, Code.readies],
      fun p' hp' => ?_, by simp [Pc.reaps]⟩
    cases hp'
    refine ⟨?_, ?_, fun i hlive => absurd (Or.inl (hdead (p, i) rfl)) hlive⟩ <;>
      simp [State.pstate, allocprocAt, State.setLock]

theorem inv_exitMark {q : Fin nproc → Proc} {terminated : List Int}
    (hcpu : s.cpu c = .run x stack (.code (.work .exit)))
    (halone : s.alone c x.1) (hfree : s.ptlock = none)
    (hproc : ∀ p, p ≠ x.1 → (q p).state = s.pstate p ∧ (q p).maker = (s.proc p).maker)
    (hzombie : (q x.1).state = .zombie) :
    Inv (({ s with
      proc := q
      thread := fun y =>
        if y.1 = x.1 ∧ (s.thread y).state ≠ .unused then
          { s.thread y with state := .zombie, chan := none }
        else s.thread y
      ptlock := some c
      terminated := terminated } : State n).setCpu c (.run x stack .exited)) := by
  have hrunnable := h.runnable hcpu rfl
  have hothers : ∀ c' z, c' ≠ c → (s.cpu c').thread = some z → z.1 ≠ x.1 := by
    intro c' z hne hrun hz
    refine halone c' hne ?_
    rw [hrun, Option.map_some, hz]
  refine h.sweep (p := x.1) ⟨fun y hy => if_neg fun hboth => hy hboth.1, fun y hy => ?_, hproc,
    hothers, by simp [hrunnable]⟩ hcpu rfl
    ⟨h.locked.table_acquire hfree rfl, h.locked.locks_keep (by rw [hcpu]; rfl)⟩
    (h.arrives hcpu (fun hsettled => by cases hsettled)
      (fun hexits => by cases hexits) (Or.inr ⟨hzombie, rfl⟩) (.plain trivial rfl rfl rfl rfl))
  by_cases hunused : (s.thread y).state = .unused
  · left
    simp [State.state, hunused]
  · right
    simp [State.state, hunused, hy]

theorem inv_exit (hcpu : s.cpu c = .run x stack (.code (.work .exit)))
    (halone : s.alone c x.1) (hfree : s.ptlock = none) : Inv (exit s c x stack) := by
  have hwoken := h.wake (wakes_wakeup1 s ((s.proc x.1).parent.map .proc))
  have hq : ∀ p, p ≠ x.1 →
      (update (fun q => if (s.proc q).parent = some x.1 then
        { s.proc q with parent := some s.initproc } else s.proc q) x.1
        { s.proc x.1 with state := .zombie } p).state = s.pstate p ∧
      (update (fun q => if (s.proc q).parent = some x.1 then
        { s.proc q with parent := some s.initproc } else s.proc q) x.1
        { s.proc x.1 with state := .zombie } p).maker = (s.proc p).maker := by
    intro p hp
    rw [update_of_ne hp]
    by_cases hparent : (s.proc p).parent = some x.1 <;> simp [hparent, State.pstate]
  by_cases htold : ∃ q, (s.proc q).parent = some x.1 ∧ (s.proc q).state = .zombie
  · have htoldInv := hwoken.wake (wakes_wakeup1 _ (some (.proc s.initproc)))
    simp only [exit, if_pos htold]
    exact inv_exitMark htoldInv hcpu halone hfree hq (by rw [update_self])
  · simp only [exit, if_neg htold]
    exact inv_exitMark hwoken hcpu halone hfree hq (by rw [update_self])

end

variable {rest : List (Fin nthread)}

section

variable (h : Inv s) {t : Thread} {q : Proc} {caller : Caller}
include h

theorem Inv.lives_store (hthread : s'.thread = update s.thread y t)
    (hpstate : ∀ p, s'.pstate p = s.pstate p)
    (ht : ¬ ProcState.dead t.state →
      s.pstate y.1 = .runnable ∨ (s.pstate y.1 = .embryo ∧ t.state = .embryo)) : Lives s' := by
  intro z hz
  rw [hpstate]
  by_cases hzy : z = y
  · subst hzy
    rw [State.state, hthread, update_self] at hz ⊢
    exact ht hz
  · rw [State.state, hthread, update_of_ne hzy] at hz ⊢
    exact h.lives z hz

section

variable (hcpu : s.cpu c = .run x stack pc)
include hcpu

theorem Inv.stored (hthread : s'.thread = update s.thread y t)
    (hproc : s'.proc = update s.proc p q)
    (hcpu' : s'.cpu = update s.cpu c (.run x stack pc'))
    (hw : Written s c (some x) y t) (hp : PWritten s c (some x) p q)
    (hlocked : Locked s')
    (hlives : Lives s')
    (hready : t.state = .runnable ∨ t.state = .sleeping → Refs s' y t.context.resume.pc)
    (harrives : Arrives s s' c x pc') : Inv s' := by
  refine h.write hthread hproc hcpu' hw hp ?_ hlocked ?_ hlives (fun hy _ => hready ?_) ?_
  · rintro z hz
    cases hz
    exact cpu_thread hcpu
  · intro z hz _
    rw [cpu_thread hcpu] at hz
    exact hz
  · rwa [State.ready, State.state, hthread, update_self] at hy
  · intro z stack' pc'' heq
    cases heq
    exact harrives

theorem Inv.store (hsettled : pc.settled = true)
    (hexits : pc.exits = false) (hthread : s'.thread = update s.thread y t)
    (hproc : s'.proc = update s.proc p q)
    (hcpu' : s'.cpu = update s.cpu c (.run x stack pc')) (hne : y ≠ x)
    (hw : Written s c (some x) y t) (hp : PWritten s c (some x) p q)
    (hlocked : Locked s')
    (hlives : Lives s')
    (hready : t.state = .runnable ∨ t.state = .sleeping → Refs s' y t.context.resume.pc)
    (halive : s'.pstate x.1 = .runnable) (hrefs : Refs s' x pc') : Inv s' := by
  refine h.stored hcpu hthread hproc hcpu' hw hp hlocked hlives hready
    (h.arrives_running hcpu ?_ halive hrefs)
  rw [State.state, hthread, update_of_ne (Ne.symm hne)]
  exact h.state_running hcpu hsettled hexits

theorem Inv.storeThread (hsettled : pc.settled = true)
    (hexits : pc.exits = false) (hthread : s'.thread = update s.thread y t)
    (hproc : s'.proc = s.proc) (hcpu' : s'.cpu = update s.cpu c (.run x stack pc'))
    (hne : y ≠ x) (hw : Written s c (some x) y t)
    (hlocked : Locked s')
    (hlives : ¬ ProcState.dead t.state →
      s.pstate y.1 = .runnable ∨ (s.pstate y.1 = .embryo ∧ t.state = .embryo))
    (hready : t.state = .runnable ∨ t.state = .sleeping → Refs s' y t.context.resume.pc)
    (hrefs : Refs s' x pc') : Inv s' := by
  have hproc' : s'.proc = update s.proc x.1 (s.proc x.1) := by
    rw [update_eq_self, hproc]
  have hpstate : ∀ p, s'.pstate p = s.pstate p := fun p => by rw [State.pstate, hproc, State.pstate]
  exact h.store hcpu hsettled hexits hthread hproc' hcpu' hne hw (Inv.pwritten_same rfl rfl) hlocked
    (h.lives_store hthread hpstate hlives) hready
    ((hpstate x.1).trans (h.runnable hcpu hsettled)) hrefs

theorem Inv.storeProc (hsettled : pc.settled = true)
    (hexits : pc.exits = false) (hthread : s'.thread = s.thread)
    (hproc : s'.proc = update s.proc p q)
    (hcpu' : s'.cpu = update s.cpu c (.run x stack pc'))
    (hp : PWritten s c (some x) p q)
    (hlocked : Locked s')
    (hlives : Lives s')
    (halive : s'.pstate x.1 = .runnable) (hrefs : Refs s' x pc') : Inv s' := by
  have hrunning := h.state_running hcpu hsettled hexits
  have hthread' : s'.thread = update s.thread x (s.thread x) := by
    rw [update_eq_self, hthread]
  refine h.stored hcpu hthread' hproc hcpu' (h.written_same rfl rfl (Or.inl rfl)) hp hlocked
    hlives (fun hready => ?_)
    (h.arrives_running hcpu (by rwa [State.state, hthread]) halive hrefs)
  rw [State.state] at hrunning
  simp [hrunning] at hready

theorem Inv.made_ne (hsettled : pc.settled = true)
    (hexits : pc.exits = false) (hy : s.state y ≠ .running) : y ≠ x := by
  rintro rfl
  exact hy (h.state_running hcpu hsettled hexits)

theorem Inv.forks_ne (hsettled : pc.settled = true)
    (hp : s.pstate p = .embryo) : x.1 ≠ p := by
  rintro rfl
  have hrunnable := h.runnable hcpu hsettled
  simp [hp] at hrunnable

end

omit h in
theorem pstate_update (hproc : s'.proc = update s.proc p q) (hq : q.state = s.pstate p)
    (p' : Fin nproc) : s'.pstate p' = s.pstate p' := by
  rw [State.pstate, hproc]
  by_cases hp' : p' = p
  · subst hp'
    rw [update_self, hq]
  · rw [update_of_ne hp', State.pstate]

theorem inv_allocAbandoned (hcpu : s.cpu c = .run x stack (.allocScan p [] .fork)) :
    Inv (allocFailed (s.setLock p none) c x stack p .fork) := by
  obtain ⟨hembryo, hmaker, -⟩ := (h.refs c x stack _ hcpu).forks p rfl
  have hpstate : ∀ p', (allocFailed (s.setLock p none) c x stack p .fork).pstate p' = s.pstate p' :=
    pstate_update (p := p) rfl rfl
  refine h.storeProc hcpu rfl rfl rfl rfl rfl (h.pwritten_made hembryo hmaker)
    ⟨h.locked.table_keep (by rw [hcpu]; rfl), h.locked.locks_release (by rw [hcpu]; rfl) rfl⟩
    (fun z hz => ?_) ((hpstate x.1).trans (h.runnable hcpu rfl)) (.plain trivial rfl rfl rfl rfl)
  rw [hpstate]
  exact h.lives z hz

theorem inv_allocFound {i : Fin nthread}
    (hcpu : s.cpu c = .run x stack (.allocScan p (i :: rest) caller))
    (hunused : s.state (p, i) = .unused) : Inv (allocFound s c x stack (p, i) caller) := by
  have hrefs := h.refs c x stack _ hcpu
  have hwhere : ((s.cpu c).thread = some x ∧ x.1 = p ∧ s.pstate p = .runnable) ∨
      (s.pstate p = .embryo ∧ (s.proc p).maker = some x) := by
    cases caller with
    | kthreadCreate =>
      have hp : p = x.1 := hrefs.near
      exact Or.inl ⟨cpu_thread hcpu, hp.symm, by rw [hp]; exact h.runnable hcpu rfl⟩
    | fork =>
      obtain ⟨hembryo, hmaker, -⟩ := hrefs.forks p rfl
      exact Or.inr ⟨hembryo, hmaker⟩
  have hne : (p, i) ≠ x := h.made_ne hcpu rfl rfl (by simp [hunused])
  refine h.storeThread hcpu rfl rfl rfl rfl rfl hne (h.written_unused hunused hwhere)
    (h.locked.keep hcpu rfl rfl rfl rfl rfl) ?_ (by simp) ?_
  · intro _
    exact hwhere.imp (fun hown => hown.2.2) fun hfork => ⟨hfork.1, rfl⟩
  · refine ⟨?_, ?_, by simp [Pc.readies], ?_, by simp [Pc.reaps]⟩
    · cases caller
      · exact hrefs.near
      · trivial
    · intro y hy
      cases hy
      simp [State.state, allocFound]
    · intro p' hp'
      cases caller with
      | kthreadCreate => cases hp'
      | fork =>
        cases hp'
        obtain ⟨hembryo, hmaker, hthreads⟩ := hrefs.forks p rfl
        refine ⟨hembryo, hmaker, fun j hlive => ?_⟩
        by_cases hj : j = i
        · subst hj
          rfl
        · have hstay : (p, j) ≠ (p, i) := by simpa using hj
          refine absurd (hthreads j ?_) (by simp [Pc.makes])
          simpa [State.state, allocFound, update_of_ne hstay] using hlive

theorem inv_allocTid {tid : Int} (hcpu : s.cpu c = .run x stack (.allocTid y tid caller)) :
    Inv (allocTid s c x stack y tid caller) := by
  have hrefs := h.refs c x stack _ hcpu
  refine h.move (.of_thread rfl rfl rfl rfl rfl) hcpu rfl
    ⟨h.locked.table_keep (by rw [hcpu]; rfl), h.locked.locks_release (by rw [hcpu]; rfl) rfl⟩ rfl
    (by simp [Pc.exits]) ?_
  exact hrefs.congr rfl rfl (by cases caller <;> rfl) rfl (by cases caller <;> exact hrefs.near)

omit h in
theorem Refs.made (hrefs : Refs s z pc) (hmakes : pc.makes = some y)
    (hthread : s'.thread = update s.thread y t) (hproc : s'.proc = s.proc)
    (ht : t.state = .embryo ∧ t.maker = some z) (hmakes' : pc'.makes = some y)
    (hforks : pc'.forks = pc.forks) (hreaps : pc'.reaps = none) (hnear : pc'.near z)
    (hresume : t.context.resume = .forkret) (hreadies : pc'.readies = some y) :
    Refs s' z pc' := by
  have hself := self_of_update hthread
  refine ⟨hnear, fun y' hy' => ?_, fun y' hy' => ?_, fun p' hp' => ?_, by simp [hreaps]⟩
  · cases hmakes'.symm.trans hy'
    rw [State.state, hself]
    exact ht
  · cases hreadies.symm.trans hy'
    rw [hself]
    exact Or.inl hresume
  · rw [hforks] at hp'
    obtain ⟨hembryo, hmaker, hthreads⟩ := hrefs.forks p' hp'
    rw [State.pstate, hproc]
    refine ⟨hembryo, hmaker, fun j hlive => ?_⟩
    by_cases hj : (p', j) = y
    · rw [hmakes', hj]
    · rw [hmakes', ← hmakes]
      refine hthreads j ?_
      rwa [State.state, hthread, update_of_ne hj] at hlive

theorem inv_stackFailed (hcpu : s.cpu c = .run x stack (.code (.kalloc y caller))) :
    Inv (stackFailed s c x stack y caller) := by
  have hrefs := h.refs c x stack _ hcpu
  obtain ⟨hembryo, hmaker⟩ := hrefs.makes y rfl
  have hne : y ≠ x := h.made_ne hcpu rfl rfl (by simp [hembryo])
  cases caller with
  | kthreadCreate =>
    exact h.storeThread hcpu rfl rfl rfl rfl rfl hne (h.written_made hembryo hmaker)
      (h.locked.keep hcpu rfl rfl rfl rfl rfl) (by simp) (by simp) (.plain trivial rfl rfl rfl rfl)
  | fork =>
    obtain ⟨hpembryo, hpmaker, -⟩ := hrefs.forks y.1 rfl
    have hpstate : ∀ p, (stackFailed s c x stack y .fork).pstate p = s.pstate p :=
      pstate_update (p := y.1) rfl rfl
    exact h.store hcpu rfl rfl rfl rfl rfl hne (h.written_made hembryo hmaker)
      (h.pwritten_made hpembryo hpmaker) (h.locked.keep hcpu rfl rfl rfl rfl rfl)
      (h.lives_store rfl hpstate (by simp)) (by simp)
      ((hpstate x.1).trans (h.runnable hcpu rfl)) (.plain trivial rfl rfl rfl rfl)

theorem inv_stackReady {page : Nat} (hcpu : s.cpu c = .run x stack (.code (.kalloc y caller))) :
    Inv (stackReady s c x stack y caller page) := by
  have hrefs := h.refs c x stack _ hcpu
  obtain ⟨hembryo, hmaker⟩ := hrefs.makes y rfl
  have hne : y ≠ x := h.made_ne hcpu rfl rfl (by simp [hembryo])
  have hstate : (s.thread y).state = .embryo := hembryo
  refine h.storeThread hcpu rfl rfl rfl rfl rfl hne (h.written_made hembryo hmaker)
    (h.locked.keep hcpu rfl rfl rfl (by cases caller <;> rfl) (by cases caller <;> rfl))
    (fun _ => h.lives y (by simp [hembryo])) (fun hready => by simp [hstate] at hready) ?_
  cases caller
  · exact hrefs.made rfl rfl rfl ⟨hembryo, hmaker⟩ rfl rfl rfl hrefs.near rfl rfl
  · exact hrefs.made rfl rfl rfl ⟨hembryo, hmaker⟩ rfl rfl rfl trivial rfl rfl

omit h in
theorem Refs.first {resume : Resume} (hresume : resume = .forkret ∨ resume = .zombie) :
    Refs s' y resume.pc := by
  rcases hresume with rfl | rfl
  · exact .plain trivial rfl rfl rfl rfl
  · exact .plain trivial rfl rfl rfl rfl

theorem inv_kthreadCreate (hcpu : s.cpu c = .run x stack (.code (.created y))) :
    Inv (kthreadCreate s c x stack y) := by
  have hrefs := h.refs c x stack _ hcpu
  have hrunnable := h.runnable hcpu rfl
  obtain ⟨hembryo, hmaker⟩ := hrefs.makes y rfl
  have hne : y ≠ x := h.made_ne hcpu rfl rfl (by simp [hembryo])
  have hy : y.1 = x.1 := hrefs.near
  exact h.storeThread hcpu rfl rfl rfl rfl rfl hne (h.written_made hembryo hmaker)
    (h.locked.keep hcpu rfl rfl rfl rfl rfl)
    (fun _ => Or.inl (by rw [hy]; exact hrunnable)) (fun _ => Refs.first (hrefs.readies y rfl))
    (.plain trivial rfl rfl rfl rfl)

theorem inv_forkFailed (hcpu : s.cpu c = .run x stack (.code (.copyuvm y))) :
    Inv (forkFailed s c x stack y) := by
  have hrefs := h.refs c x stack _ hcpu
  have hrunnable := h.runnable hcpu rfl
  obtain ⟨hembryo, hmaker⟩ := hrefs.makes y rfl
  obtain ⟨hpembryo, hpmaker, hthreads⟩ := hrefs.forks y.1 rfl
  have hne : y ≠ x := h.made_ne hcpu rfl rfl (by simp [hembryo])
  have hx : x.1 ≠ y.1 := h.forks_ne hcpu rfl hpembryo
  refine h.store hcpu rfl rfl rfl rfl rfl hne (h.written_made hembryo hmaker)
    (h.pwritten_made hpembryo hpmaker) (h.locked.keep hcpu rfl rfl rfl rfl rfl) ?_ (by simp) ?_
    (.plain trivial rfl rfl rfl rfl)
  · intro z hz
    -- the other threads of the process are dead: this `fork` has made only `y`
    have hzy : z ≠ y := by
      rintro rfl
      simp [State.state] at hz
    have hstay : s.state z = (forkFailed s c x stack y).state z := by
      simp [State.state, update_of_ne hzy]
    have hz1 : z.1 ≠ y.1 := by
      intro heq
      have hmade := hthreads z.2 (by rw [← heq, hstay]; exact hz)
      rw [← heq] at hmade
      exact hzy (Option.some.inj hmade).symm
    have hkept : s.pstate z.1 = (forkFailed s c x stack y).pstate z.1 := by
      simp [State.pstate, update_of_ne hz1]
    rw [← hkept, ← hstay]
    exact h.lives z (by rw [hstay]; exact hz)
  · simpa [State.pstate, update_of_ne hx] using hrunnable

theorem inv_forkDone (hcpu : s.cpu c = .run x stack (.code (.copied y))) :
    Inv (forkDone s c x stack y) := by
  have hrefs := h.refs c x stack _ hcpu
  have hrunnable := h.runnable hcpu rfl
  obtain ⟨hembryo, hmaker⟩ := hrefs.makes y rfl
  obtain ⟨hpembryo, hpmaker, -⟩ := hrefs.forks y.1 rfl
  have hne : y ≠ x := h.made_ne hcpu rfl rfl (by simp [hembryo])
  have hx : x.1 ≠ y.1 := h.forks_ne hcpu rfl hpembryo
  have hpstate : ∀ {p'}, p' ≠ y.1 → (forkDone s c x stack y).pstate p' = s.pstate p' := by
    intro p' hp'
    simp [State.pstate, forkDone, update_of_ne hp']
  refine h.store hcpu rfl rfl rfl rfl rfl hne (h.written_made hembryo hmaker)
    (h.pwritten_made hpembryo hpmaker) (h.locked.keep hcpu rfl rfl rfl rfl rfl) ?_
    (fun _ => Refs.first (hrefs.readies y rfl)) ((hpstate hx).trans hrunnable)
    (.plain trivial rfl rfl rfl rfl)
  intro z hz
  by_cases hz1 : z.1 = y.1
  · left
    simp [State.pstate, forkDone, hz1]
  · have hzy : z ≠ y := by
      rintro rfl
      exact hz1 rfl
    have hstay : (forkDone s c x stack y).state z = s.state z := by
      simp [State.state, forkDone, update_of_ne hzy]
    rw [hstay] at hz ⊢
    rw [hpstate hz1]
    exact h.lives z hz

end

section

variable (h : Inv s)
include h

section

variable (hcpu : s.cpu c = .run x stack pc) (hpc : AtWait s pc)
include hcpu hpc

theorem Inv.wait_alone {c' : Fin n}
    (hne : c' ≠ c) : (s.cpu c').table ≠ true := by
  intro htable
  rcases hpc with ⟨-, hfree⟩ | rfl
  · exact absurd ((h.table c').mpr htable) (by simp [hfree])
  · exact hne (h.table.same htable (by rw [hcpu]; rfl))

end

section

variable (hcpu : s.cpu c = .run x stack pc) (hpc : AtWait s pc)
include hcpu hpc

theorem inv_waitReap {q : Fin nproc}
    (hq : s.pstate q = .zombie) : Inv (waitReap s c x stack q) := by
  obtain ⟨hsettled, hexits, hlock⟩ := hpc.plain x
  have hrunnable := h.runnable hcpu hsettled
  have hx : x.1 ≠ q := by
    rintro rfl
    simp [hq] at hrunnable
  have hpstate : ∀ {p'}, p' ≠ q → (returnTo ((s.setTable none).setProc q
      { s.proc q with state := .unused, pid := 0, parent := none, killed := false })
        c x stack).pstate p' = s.pstate p' := by
    intro p' hp'
    simp [State.pstate, update_of_ne hp']
  have hproc : Inv (returnTo ((s.setTable none).setProc q
      { s.proc q with state := .unused, pid := 0, parent := none, killed := false })
      c x stack) := by
    refine h.storeProc hcpu hsettled hexits rfl rfl rfl ?_
      ⟨h.locked.wait_out hcpu hpc rfl, h.locked.locks_keep (by rw [hcpu]; exact hlock.symm)⟩ ?_
      ((hpstate hx).trans hrunnable) (.plain trivial rfl rfl rfl rfl)
    · refine ⟨fun z _ hembryo => by simp [hq] at hembryo, fun c' z stack' pc'' hne hrun hz => ?_⟩
      have halive := h.alive c' z stack' pc'' hrun
      have hexited : pc'' = .exited := by simpa [hz, hq] using halive
      subst hexited
      exact absurd (by rw [hrun]; rfl) (h.wait_alone hcpu hpc hne)
    · intro z hz
      have hlives := h.lives z hz
      have hzq : z.1 ≠ q := by
        intro heq
        simp [heq, hq] at hlives
      rw [hpstate hzq]
      exact hlives
  -- freeing the stacks changes no state
  refine hproc.congr ⟨fun y => ?_, fun p => ⟨rfl, rfl⟩⟩ rfl rfl rfl
  simp only [waitReap, returnTo, State.setTable, State.setProc, State.setCpu]
  split <;> simp

theorem inv_waitSleep : Inv (waitSleep s c x stack) := by
  obtain ⟨hsettled, -, hlock⟩ := hpc.plain x
  refine h.leave hcpu (waitSleep_thread s c x stack) rfl rfl rfl hlock ?_
    (h.written_own hcpu hsettled) (fun _ => Or.inl (h.runnable hcpu hsettled))
    (fun _ => .plain trivial rfl rfl rfl rfl)
  rcases hpc with ⟨rfl, hfree⟩ | rfl
  · exact Or.inr ⟨hfree, rfl⟩
  · exact Or.inl ⟨rfl, ((h.table c).mpr (by rw [hcpu]; rfl)).symm⟩

end

end

section

variable (h : Inv s)
include h

theorem inv_kthreadExit (hcpu : s.cpu c = .run x stack (.code .kthreadExit))
    (hfree : s.ptlock = none) : Inv (kthreadExit s c x stack) := by
  refine h.stored hcpu rfl (update_eq_self x.1 s.proc).symm rfl (h.written_own hcpu rfl)
    (Inv.pwritten_same rfl rfl)
    ⟨h.locked.table_acquire hfree rfl, h.locked.locks_keep (by rw [hcpu]; rfl)⟩
    (h.lives_store rfl (fun _ => rfl) (by simp)) (by simp) ?_
  exact h.arrives hcpu (fun hsettled => by cases hsettled) (fun hexits => by cases hexits)
    (Or.inl (h.runnable hcpu rfl)) (.plain trivial rfl rfl rfl rfl)

theorem inv_lastExit (hcpu : s.cpu c = .run x stack .kthreadExiting) (hpc' : pc'.exits = true)
    (htable : pc'.table = false) (hlock : pc'.lock x = none) (hrefs : Refs s x pc')
    (hdead : ∀ i, ProcState.dead (s.state (x.1, i))) :
    Inv ((s.setTable none).setCpu c (.run x stack pc')) := by
  have hrunnable : s.pstate x.1 = .runnable := by
    simpa using h.alive c x stack _ hcpu
  have hc : (s.cpu c).table = true := by rw [hcpu]; rfl
  have hsame : Same s ((s.setTable none).setCpu c (.run x stack pc')) := .of_eq rfl rfl
  refine h.shift hsame.woken rfl (cpu_thread hcpu).symm
    ⟨h.locked.table_release hc htable, h.locked.locks_keep (by rw [hcpu]; exact hlock)⟩ ?_
  intro z stack' pc'' heq
  cases heq
  refine h.arrives hcpu (fun _ => Or.inr ⟨hdead x.2, hpc'⟩) (fun _ _ => ⟨hdead, ?_⟩)
    (Or.inl hrunnable) (hsame.woken.refs hrefs)
  intro c' y hne hrun hy
  obtain ⟨stack', pc'', hrun⟩ := exists_run hrun
  have hdead' : ProcState.dead (s.state y) := by
    have := hdead y.2
    rwa [← hy] at this
  rcases h.running c' y stack' pc'' hrun (h.settled_of_table hc hrun hne) with hr | ⟨-, hexits⟩
  · simp [hr] at hdead'
  · exact h.last_alone hrun hexits hdead' hne (cpu_thread hcpu) hy

omit h in
theorem liveThreads_nil (hnone : (liveThreads s p).length = 0) (i : Fin nthread) :
    ProcState.dead (s.state (p, i)) := by
  by_contra hlive
  have hmem : (p, i) ∈ liveThreads s p := by
    simp only [liveThreads, pthreads, List.mem_filter, List.mem_map, List.mem_finRange, true_and,
      decide_eq_true_eq]
    exact ⟨⟨i, rfl⟩, hlive⟩
  rw [List.length_eq_zero_iff.mp hnone] at hmem
  cases hmem

theorem inv_kthreadExitEnd (hcpu : s.cpu c = .run x stack .kthreadExiting) :
    Inv (kthreadExitEnd s c x stack) := by
  have hwakes := wakes_wakeup2 s x.1 (some (.thread x))
  have hwoken := h.wake hwakes
  unfold kthreadExitEnd
  simp only
  split
  · rename_i hnone
    have hdead : ∀ i, ProcState.dead ((wakeup2 s x.1 (some (.thread x))).state (x.1, i)) :=
      fun i => hwakes.woken.dead.mpr (liveThreads_nil hnone i)
    unfold enterExit
    split
    · exact inv_lastExit hwoken hcpu rfl rfl rfl (.plain trivial rfl rfl rfl rfl) hdead
    · exact inv_lastExit hwoken hcpu rfl rfl rfl (.plain trivial rfl rfl rfl rfl) hdead
  · exact inv_switch hwoken hcpu rfl rfl

end

section

variable (h : Inv s) {id : Int}
include h

theorem inv_reap (hcpu : s.cpu c = .run x stack pc) (hreaps : pc.reaps = some y)
    (hthread : s'.thread = (reap s y).thread) (hproc : s'.proc = s.proc)
    (hcpu' : s'.cpu = update s.cpu c (.run x stack pc'))
    (hlocked : Locked s')
    (hrefs : Refs s' x pc') : Inv s' := by
  have hsettled : pc.settled = true := by
    cases pc <;> simp_all [Pc.reaps, Pc.settled]
  have hexits : pc.exits = false := by
    cases pc <;> simp_all [Pc.reaps, Pc.exits]
  have hzombie := (h.refs c x stack pc hcpu).reaps y hreaps
  have hne : y ≠ x := h.made_ne hcpu hsettled hexits (by simp [hzombie])
  exact h.storeThread hcpu hsettled hexits hthread hproc hcpu' hne
    (h.written_reaped hcpu hreaps rfl) hlocked (by simp) (by simp) hrefs

theorem inv_joinReap {looped : Bool} (hcpu : s.cpu c = .run x stack (.joinReap y id looped)) :
    Inv (joinDone (reap s y) c x stack id) :=
  inv_reap h hcpu rfl rfl rfl rfl
    ⟨h.locked.table_keep (by rw [hcpu]; rfl), h.locked.locks_release (by rw [hcpu]; rfl) rfl⟩
    (.plain trivial rfl rfl rfl rfl)

theorem inv_joinDone (hcpu : s.cpu c = .run x stack (.joinUsed y id)) :
    Inv (joinDone s c x stack id) :=
  h.move (.of_eq rfl rfl) hcpu rfl
    ⟨h.locked.table_keep (by rw [hcpu]; rfl), h.locked.locks_release (by rw [hcpu]; rfl) rfl⟩ rfl
    (by simp [Pc.exits]) (.plain trivial rfl rfl rfl rfl)

theorem inv_execWake (hcpu : s.cpu c = .run x stack (.execWake y rest))
    (hsleeping : s.state y = .sleeping) :
    Inv ((s.setState y .runnable).setCpu c (.run x stack (.execScan rest true))) := by
  have hwoken := h.wake (wakes_setState hsleeping)
  exact hwoken.move (.of_eq rfl rfl) hcpu rfl (hwoken.locked.keep hcpu rfl rfl rfl rfl rfl) rfl
    (by simp [Pc.exits]) (.plain trivial rfl rfl rfl rfl)

end

theorem inv_boot (n page : Nat) : Inv (boot n page) where
  table := fun _ => by simp [Cpu.table]
  locks := fun _ _ => by simp [Cpu.lock]
  unique := fun _ _ _ hrun => by simp [Cpu.thread] at hrun
  running := fun _ _ _ _ hrun => by simp at hrun
  last := fun _ _ _ _ hrun => by simp at hrun
  lives := fun x hx => by
    by_cases hfirst : x = (proc0, thread0)
    · subst hfirst
      exact Or.inl rfl
    · simp [State.state, hfirst] at hx
  alive := fun _ _ _ _ hrun => by simp at hrun
  refs := fun _ _ _ _ hrun => by simp at hrun
  saved := fun x _ _ => by
    refine Refs.first (Or.inl ?_)
    by_cases hfirst : x = (proc0, thread0) <;> simp [hfirst]

section

variable (h : Inv s)
include h

theorem Moves.refs (hcpu : s.cpu c = .run x stack pc) (hmoves : Moves s x pc pc') :
    Refs s x pc' := by
  have hrefs := h.refs c x stack pc hcpu
  cases hmoves with
  | stay => exact hrefs
  | tick => exact hrefs.congr rfl rfl rfl rfl hrefs.near
  | copied => exact hrefs.congr rfl rfl rfl rfl trivial
  | allocLock p caller | allocSkip p i rest caller =>
    exact hrefs.congr rfl rfl (by cases caller <;> rfl) rfl (by cases caller <;> exact hrefs.near)
  | call syscall =>
    cases syscall <;> first
      | exact .plain trivial rfl rfl rfl rfl
      | exact .plain rfl rfl rfl rfl rfl
  | waitPanic pc hpc why hwhy halive =>
    rcases hwhy with rfl | rfl
    · exact .plain trivial rfl rfl rfl rfl
    · obtain ⟨y, hzombie, hlive⟩ := halive rfl
      have hlives := h.lives y hlive
      simp [hzombie] at hlives
  | joinPanic y id looped why hwhy =>
    rcases hwhy with rfl | rfl <;> exact .plain trivial rfl rfl rfl rfl
  | join y id hy => exact .plain hy rfl rfl rfl rfl
  | joinZombie y id hy | loopZombie y id hy => exact .reaper hrefs.near rfl rfl rfl rfl hy
  | joinUsed | joinWait | loopSleep | joinSleep | rejoin =>
    exact .plain hrefs.near rfl rfl rfl rfl
  | execZombie i rest threadsAlive hi => exact .reaper rfl rfl rfl rfl rfl hi
  | execSleeping => exact .plain rfl rfl rfl rfl rfl
  | _ => exact .plain trivial rfl rfl rfl rfl

omit h in
theorem Moves.exits (hmoves : Moves s x pc pc') (hdead : ProcState.dead (s.state x))
    (hexits : pc.exits = true) : pc'.exits = true := by
  cases hmoves with
  | stay => exact hexits
  | tick k hrunning => simp [hrunning] at hdead
  | exit | initExit => rfl
  | sleep mode =>
    cases mode
    · cases hexits
    · rfl
  | wait pc hpc | waitPanic pc hpc =>
    rw [(hpc.plain x).2.1] at hexits
    cases hexits
  | _ => cases hexits

theorem inv_step {a : Act n} (hcalm : Calm s a) (hstep : step s a = some s') : Inv s' := by
  cases effect_step hstep with
  | moves x stack pc pc' s' hcpu hkept hcpu' hmoves hlocked =>
    exact h.move ⟨fun y => by simp [hkept.thread], fun p => ⟨hkept.state p, hkept.maker p⟩⟩ hcpu
      hcpu' (hlocked h.locked) hmoves.settled.1 hmoves.exits (hmoves.refs h hcpu)
  | acquire hcpu hfree => exact inv_scheduling h hcpu hfree
  | release hcpu => exact inv_idle h hcpu
  | switchTo x hcpu hx => exact inv_switchTo h hcpu hx
  | wakeup => exact h.wake (wakes_wakeup1 s _)
  | take | drop | beginOp | endOp => exact h.congr (.of_eq rfl rfl) rfl rfl rfl
  | yield x stack k hcpu hfree => exact inv_yield h hcpu hfree
  | sleep x stack chan k hcpu => exact inv_sleep h hcpu
  | waitSleep x stack pc hcpu hpc => exact inv_waitSleep h hcpu hpc
  | waitReap x stack pc q hcpu hpc hq => exact inv_waitReap h hcpu hpc (zombieChild_some hq)
  | allocproc x stack p hcpu hp => exact inv_allocprocAt h hcpu hp
  | allocAbandoned x stack p hcpu => exact inv_allocAbandoned h hcpu
  | allocFound x stack p i rest caller hcpu hi => exact inv_allocFound h hcpu hi
  | allocTid x stack y tid caller hcpu => exact inv_allocTid h hcpu
  | stackReady x stack y caller page hcpu => exact inv_stackReady h hcpu
  | stackFailed x stack y caller hcpu => exact inv_stackFailed h hcpu
  | kthreadCreate x stack y hcpu => exact inv_kthreadCreate h hcpu
  | forkFailed x stack y hcpu => exact inv_forkFailed h hcpu
  | forkDone x stack y hcpu => exact inv_forkDone h hcpu
  | exit x stack hcpu hcmd _ hfree =>
    exact inv_exit h hcpu (by simpa [Calm, hcpu, hcmd] using hcalm) hfree
  | exited x stack hcpu => exact inv_switch h hcpu rfl rfl
  | kthreadExit x stack hcpu hfree => exact inv_kthreadExit h hcpu hfree
  | kthreadExitEnd x stack hcpu => exact inv_kthreadExitEnd h hcpu
  | joinDone x stack y id hcpu => exact inv_joinDone h hcpu
  | joinReap x stack y id looped hcpu => exact inv_joinReap h hcpu
  | execReap x stack y rest threadsAlive hcpu =>
    exact inv_reap h hcpu rfl rfl rfl rfl (h.locked.keep hcpu rfl rfl rfl rfl rfl)
      (.plain trivial rfl rfl rfl rfl)
  | execWake x stack y rest hcpu =>
    have hcmd := step_go hcpu (by simp) hstep
    exact inv_execWake h hcpu (by simpa [Calm, hcpu, hcmd] using hcalm)

end

theorem Inv.dead_of_dead (h : Inv s) (hp : ProcState.dead (s.pstate p))
    (hy : y.1 = p) : ProcState.dead (s.state y) := by
  by_contra hlive
  rcases h.lives y hlive with heq | ⟨heq, -⟩ <;> simp [← hy, heq] at hp

end Xv6.Kernel
