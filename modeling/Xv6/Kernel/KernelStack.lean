import Xv6.Kernel.Steps
import Mathlib.Data.List.TakeWhile

/-! Kernel stacks. A page is freed by the reaper of a thread, which must be the
only one, and after the thread has left the page. `kthread_join` and
`wait_before_exec` do not hold `ptable.lock`, so they can come between the store
of `ZOMBIE` and the switch; and `exit` marks threads that have no stack yet. -/
namespace Xv6.Kernel
open Function (update update_self update_of_ne update_eq_self)
open Transition

variable {n : Nat}

/-- The threads whose `kstack` a step passes to `kfree`. -/
def reapedThreads (s : State n) (a : Act n) : List Slot :=
  match s.cpu a.cpu, a.cmd with
  | .run _ _ (.joinReap y _ looped), .go =>
    if looped ∧ (s.thread y).state = .unused then [] else [y]
  | .run _ _ (.execReap y _ _), .go => [y]
  | .run _ _ (.code (.copyuvm y)), .copyuvm false => [y]
  | .run x _ (.code .wait), .go | .run x _ .waitScan, .go =>
    match zombieChild s x.1 with
    | some q => waitFrees s q
    | none => []
  | _, _ => []

/-- The arguments of `kfree` in a step, with the threads. -/
def frees (s : State n) (a : Act n) : List (Slot × Nat) :=
  (reapedThreads s a).map fun y => (y, (s.thread y).kstack)

/-- Each page that a step frees is the kernel stack of its thread, is freed once
and has no CPU on it. -/
structure FreesSound (s : State n) (a : Act n) (next : State n) : Prop where
  owned : ∀ y g, (y, g) ∈ frees s a → g ≠ 0 ∧ s.stackPages g = some y
  once : ((frees s a).map Prod.snd).Nodup
  freed : ∀ y g, (y, g) ∈ frees s a → next.stackPages g = none
  unused : ∀ y g, (y, g) ∈ frees s a → ∀ c x pc, s.cpu c ≠ .run x g pc

/-- Every thread of the process that is being made has its stack. -/
def State.stacksGiven (s : State n) (p : Fin nproc) : Prop :=
  ∀ i, s.state (p, i) = .embryo → (s.thread (p, i)).kstack ≠ 0

instance (s : State n) (p : Fin nproc) : Decidable (s.stacksGiven p) :=
  Nat.decidableForallFin _

def State.switched (s : State n) (y : Slot) : Prop :=
  ∀ c, (s.cpu c).thread ≠ some y

instance (s : State n) (y : Slot) : Decidable (s.switched y) :=
  Nat.decidableForallFin _

/-- `exit` finds no thread whose stack is still to be allocated, and the two
reapers without `ptable.lock` find threads that have switched away. -/
def Careful (s : State n) (a : Act n) : Prop :=
  Calm s a ∧ (a.cmd.exits = true → ∀ x ∈ (s.cpu a.cpu).exiting, s.stacksGiven x.1) ∧
    ∀ y ∈ (s.cpu a.cpu).reaping, s.switched y

instance (s : State n) (a : Act n) : Decidable (Careful s a) :=
  @instDecidableAnd _ _ inferInstance (@instDecidableAnd _ _
    (@instDecidableForall _ _ inferInstance (Option.decidableForallMem _))
    (Option.decidableForallMem _))

def Code.allocs : Code → Option Slot
  | .kalloc y _ => some y
  | _ => none

def Pc.allocs : Pc → Option Slot
  | .code k | .yielding k | .sleeping _ k => k.allocs
  | .allocTid y _ _ => some y
  | _ => none

structure StackRefs (s : State n) (pc : Pc) : Prop where
  bare : ∀ y, pc.allocs = some y → (s.thread y).kstack = 0
  ready : ∀ y, pc.readies = some y → (s.thread y).kstack ≠ 0

structure OnStack (s : State n) (x : Slot) (stack : Nat) (pc : Pc) : Prop where
  stack : stack = (s.thread x).kstack
  nonzero : (s.thread x).kstack ≠ 0
  settled : pc.settled = false → s.state x = .zombie
  refs : StackRefs s pc

structure OffStack (s : State n) (x : Slot) : Prop where
  context : s.state x = .embryo ∨ s.ready x → (s.thread x).kstack ≠ 0 →
    (s.thread x).context.stack = (s.thread x).kstack
  refs : s.ready x → StackRefs s (s.thread x).context.resume.pc

/-- Which threads have a kernel stack. `wait` leaves its threads `ZOMBIE`. -/
def stackFits (state pstate : ProcState) (kstack : Nat) : Prop :=
  match state with
  | .unused => kstack = 0
  | .embryo => True
  | .zombie => pstate ≠ .embryo ∧ (kstack = 0 ↔ pstate = .unused)
  | _ => kstack ≠ 0

attribute [local simp] State.setCpu State.ready State.setLock stackFits State.setThread
  State.setProc boot returnTo allocFailed

structure Stacks (s : State n) : Prop where
  owned : ∀ y g, s.stackPages g = some y ↔ (s.thread y).kstack = g ∧ g ≠ 0
  fits : ∀ y, stackFits (s.state y) (s.pstate y.1) (s.thread y).kstack
  locals : Locals OnStack OffStack s

variable {s s' : State n} {c : Fin n} {x y : Slot} {stack : Nat} {pc pc' : Pc}

theorem makes_of_allocs (h : pc.allocs = some y) : pc.makes = some y := by
  cases pc <;> simp_all [Pc.allocs, Pc.makes] <;> rename_i k <;>
    cases k <;> simp_all [Code.allocs, Code.makes]

theorem stackFits_other {state pstate pstate' : ProcState} {kstack : Nat}
    (h : stackFits state pstate kstack) (hstate : state ≠ .zombie) :
    stackFits state pstate' kstack := by
  cases state <;> first | exact h | exact absurd rfl hstate

theorem StackRefs.plain (hallocs : pc.allocs = none) (hreadies : pc.readies = none) :
    StackRefs s pc :=
  ⟨by simp [hallocs], by simp [hreadies]⟩

theorem StackRefs.congr (h : StackRefs s pc) (hallocs : pc'.allocs = pc.allocs)
    (hreadies : pc'.readies = pc.readies) : StackRefs s pc' :=
  ⟨hallocs ▸ h.bare, hreadies ▸ h.ready⟩

theorem StackRefs.frame (h : StackRefs s pc)
    (hmade : ∀ y, pc.makes = some y → (s'.thread y).kstack = (s.thread y).kstack) :
    StackRefs s' pc where
  bare := fun y hy => by
    rw [hmade y (makes_of_allocs hy)]
    exact h.bare y hy
  ready := fun y hy => by
    rw [hmade y (makes_of_readies hy)]
    exact h.ready y hy

theorem OnStack.congr (h : OnStack s x stack pc)
    (hkstack : (s'.thread x).kstack = (s.thread x).kstack)
    (hsettled : pc'.settled = false → s'.state x = .zombie) (hrefs : StackRefs s' pc') :
    OnStack s' x stack pc' :=
  ⟨by rw [hkstack, h.stack], by rw [hkstack]; exact h.nonzero, hsettled, hrefs⟩

theorem OffStack.of_state (hembryo : s.state x ≠ .embryo) (hready : ¬ s.ready x) : OffStack s x :=
  ⟨fun hx => (hx.elim hembryo hready).elim, fun hx => absurd hx hready⟩

theorem Moves.makes_eq (h : Moves s x pc pc') :
    pc'.allocs = pc.allocs ∧ pc'.readies = pc.readies := by
  cases h <;> try exact ⟨rfl, rfl⟩
  case call syscall _ => cases syscall <;> exact ⟨rfl, rfl⟩
  case exit k hk => rcases hk with rfl | ⟨rfl, -⟩ <;> exact ⟨rfl, rfl⟩
  case initExit k hk => rcases hk with rfl | ⟨rfl, -⟩ <;> exact ⟨rfl, rfl⟩
  case wait hwait => rcases hwait with ⟨rfl, -⟩ | rfl <;> exact ⟨rfl, rfl⟩
  case waitPanic hwait => rcases hwait with ⟨rfl, -⟩ | rfl <;> exact ⟨rfl, rfl⟩

variable {p : Fin nproc}

section

variable {t : Thread} {v : Cpu}

section

variable (h : Stacks s)
include h

/-- One thread record is stored and the CPU moves. A stack is given or taken
only by the thread that makes `y`, or when `y` is not being made. -/
theorem Stacks.store (hinv : Inv s)
    (hthread : s'.thread = update s.thread y t)
    (hcpu' : s'.cpu = update s.cpu c v)
    (howned : ∀ z g, s'.stackPages g = some z ↔ (s'.thread z).kstack = g ∧ g ≠ 0)
    (hproc : ∀ z, z ≠ y → s.state z = .zombie → s'.pstate z.1 = s.pstate z.1)
    (hfits : stackFits t.state (s'.pstate y.1) t.kstack)
    (hkstack : t.kstack = (s.thread y).kstack ∨
      (s.state y = .embryo → (s.cpu c).thread = (s.thread y).maker))
    (hran : ∀ c' stack pc, c' ≠ c → s.cpu c' = .run y stack pc →
      t.kstack = (s.thread y).kstack ∧ (pc.settled = false → t.state = .zombie))
    (hleft : ∀ z, (s.cpu c).thread = some z → z ≠ y → v.thread = some z)
    (hoff : OffStack s' y)
    (hv : ∀ x stack pc, v = .run x stack pc → OnStack s' x stack pc) : Stacks s' := by
  have hself := self_of_update hthread
  have hstay : ∀ {z}, z ≠ y → s'.thread z = s.thread z := stay_of_update hthread
  -- whoever is making a thread, other than the CPU that moves, sees the same stack
  have hmade : ∀ {z pc}, Refs s z pc → (s.cpu c).thread ≠ some z →
      ∀ y', pc.makes = some y' → (s'.thread y').kstack = (s.thread y').kstack := by
    intro z pc hrefs hz y' hy'
    by_cases heq : y' = y
    · subst heq
      obtain ⟨hembryo, hmaker⟩ := hrefs.makes y' hy'
      rcases hkstack with hsame | hown
      · rw [hself, hsame]
      · exact absurd ((hown hembryo).trans hmaker) hz
    · rw [hstay heq]
  refine ⟨howned, fun z => ?_, h.locals.step hcpu' ?_ ?_ ?_ hv⟩
  · by_cases hz : z = y
    · subst hz
      rw [State.state, hself]
      exact hfits
    · have hold := h.fits z
      rw [State.state, hstay hz]
      by_cases hzombie : s.state z = .zombie
      · rw [hproc z hz hzombie]
        exact hold
      · exact stackFits_other hold hzombie
  · intro c' z stack' pc'' hne hrun hon
    have hother : (s.cpu c).thread ≠ some z := fun hc =>
      hne (hinv.unique c' c z (cpu_thread hrun) hc)
    have hrefs := hon.refs.frame (hmade (hinv.refs c' z stack' pc'' hrun) hother)
    by_cases hz : z = y
    · subst hz
      obtain ⟨hsame, hzombie⟩ := hran c' stack' pc'' hne hrun
      refine hon.congr (by rw [hself, hsame]) (fun hsettled => ?_) hrefs
      rw [State.state, hself]
      exact hzombie hsettled
    · refine hon.congr (by rw [hstay hz]) (fun hsettled => ?_) hrefs
      rw [State.state, hstay hz]
      exact hon.settled hsettled
  · intro z hnone _ hold
    by_cases hz : z = y
    · subst hz
      exact hoff
    · refine ⟨?_, fun hready => ?_⟩
      · rw [State.ready, State.state, hstay hz]
        exact hold.context
      · rw [State.ready, State.state, hstay hz] at hready
        rw [hstay hz]
        exact (hold.refs hready).frame (hmade (hinv.saved z hready hnone) (hnone c))
  · intro z hz hv'
    by_cases hzy : z = y
    · subst hzy
      exact hoff
    · exact absurd (hleft z hz hzy) hv'

theorem Stacks.move
    (hthread : ∀ y, (s'.thread y).kstack = (s.thread y).kstack ∧ s'.state y = s.state y ∧
      (s'.thread y).context = (s.thread y).context)
    (hpstate : ∀ p, s'.pstate p = s.pstate p) (hpages : s'.stackPages = s.stackPages)
    (hcpu' : s'.cpu = update s.cpu c v) (hv' : v.thread = (s.cpu c).thread)
    (hv : ∀ x stack pc, v = .run x stack pc → OnStack s x stack pc) : Stacks s' := by
  have hon : ∀ {x stack pc}, OnStack s x stack pc → OnStack s' x stack pc := by
    intro x stack pc hon
    refine hon.congr (hthread x).1 ?_ (hon.refs.frame fun y _ => (hthread y).1)
    rw [(hthread x).2.1]
    exact hon.settled
  refine ⟨fun y g => ?_, fun y => ?_, h.locals.step hcpu' ?_ ?_ ?_ ?_⟩
  · rw [hpages, (hthread y).1]
    exact h.owned y g
  · rw [(hthread y).1, (hthread y).2.1, hpstate]
    exact h.fits y
  · exact fun _ _ _ _ _ _ hold => hon hold
  · intro x _ _ hold
    obtain ⟨hkstack, hstate, hcontext⟩ := hthread x
    refine ⟨?_, fun hready => ?_⟩
    · rw [State.ready, hstate, hkstack, hcontext]
      exact hold.context
    · rw [State.ready, hstate] at hready
      rw [hcontext]
      exact (hold.refs hready).frame fun y _ => (hthread y).1
  · intro x hx hne
    exact absurd (hv'.trans hx) hne
  · exact fun x stack pc heq => hon (hv x stack pc heq)

theorem Stacks.goto (hcpu : s.cpu c = .run x stack pc)
    (hthread : ∀ y, (s'.thread y).kstack = (s.thread y).kstack ∧ s'.state y = s.state y ∧
      (s'.thread y).context = (s.thread y).context)
    (hpstate : ∀ p, s'.pstate p = s.pstate p) (hpages : s'.stackPages = s.stackPages)
    (hcpu' : s'.cpu = update s.cpu c (.run x stack pc')) (hsettled : pc'.settled = true)
    (hrefs : StackRefs s pc') : Stacks s' := by
  refine h.move hthread hpstate hpages hcpu' (cpu_thread hcpu).symm ?_
  intro z stack' pc'' heq
  cases heq
  exact (h.locals.running c x stack pc hcpu).congr rfl (by simp [hsettled]) hrefs

theorem Stacks.wake (hw : Wakes s s') (hpages : s'.stackPages = s.stackPages) :
    Stacks s' := by
  have hkstack : ∀ y, (s'.thread y).kstack = (s.thread y).kstack := by
    intro y
    rcases hw.thread y with heq | ⟨-, heq⟩ <;> rw [heq]
  refine ⟨fun y g => ?_, fun y => ?_, ⟨fun c x stack pc hrun => ?_, fun x hnone => ?_⟩⟩
  · rw [hpages, hkstack]
    exact h.owned y g
  · have hold := h.fits y
    rw [hkstack, hw.woken.pstate]
    rcases hw.woken.state y with heq | ⟨hsleeping, hrunnable⟩
    · rwa [heq]
    · rw [hsleeping] at hold
      rw [hrunnable]
      exact hold
  · rw [hw.cpu] at hrun
    have hold := h.locals.running c x stack pc hrun
    refine hold.congr (hkstack x) (fun hsettled => ?_) (hold.refs.frame fun y _ => hkstack y)
    exact (hw.woken.state_eq (by decide) (by decide)).mpr (hold.settled hsettled)
  · have hold := h.locals.resting x (hw.cpu ▸ hnone)
    refine ⟨fun hx => ?_, fun hready => ?_⟩
    · rw [hkstack, (hw.woken.other x).2]
      refine hold.context (hx.imp (fun hembryo => ?_) hw.woken.ready)
      exact (hw.woken.state_eq (by decide) (by decide)).mp hembryo
    · rw [(hw.woken.other x).2]
      exact (hold.refs (hw.woken.ready hready)).frame fun y _ => hkstack y

theorem Stacks.sweep (hinv : Inv s)
    (hother : ∀ z : Slot, z.1 ≠ p → s'.thread z = s.thread z ∧ s'.pstate z.1 = s.pstate z.1)
    (hdead : ∀ z : Slot, z.1 = p → ProcState.dead (s'.state z))
    (hfits : ∀ z : Slot, z.1 = p → stackFits (s'.state z) (s'.pstate p) (s'.thread z).kstack)
    (hmade : ∀ z, s.state z = .embryo → (s'.thread z).kstack = (s.thread z).kstack)
    (howned : ∀ z g, s'.stackPages g = some z ↔ (s'.thread z).kstack = g ∧ g ≠ 0)
    (hout : ∀ c' z, c' ≠ c → (s.cpu c').thread = some z → z.1 ≠ p)
    (hcpu : (s.cpu c).thread = some x)
    (hcpu' : s'.cpu = update s.cpu c (.run x stack pc)) (hon : OnStack s' x stack pc) :
    Stacks s' := by
  refine ⟨howned, fun z => ?_, h.locals.step hcpu' ?_ ?_ ?_ ?_⟩
  · by_cases hz : z.1 = p
    · have := hfits z hz
      rwa [← hz] at this
    · obtain ⟨hthread, hpstate⟩ := hother z hz
      rw [State.state, hthread, hpstate]
      exact h.fits z
  · intro c' z stack' pc'' hne hrun hold
    obtain ⟨hthread, -⟩ := hother z (hout c' z hne (cpu_thread hrun))
    have hrefs := hinv.refs c' z stack' pc'' hrun
    refine hold.congr (by rw [hthread]) ?_
      (hold.refs.frame fun y hy => hmade y (hrefs.makes y hy).1)
    rw [State.state, hthread]
    exact hold.settled
  · intro z hnone _ hold
    by_cases hz : z.1 = p
    · rcases hdead z hz with heq | heq <;> exact .of_state (by simp [heq]) (by simp [heq])
    · obtain ⟨hthread, -⟩ := hother z hz
      refine ⟨?_, fun hready => ?_⟩
      · rw [State.ready, State.state, hthread]
        exact hold.context
      · rw [State.ready, State.state, hthread] at hready
        rw [hthread]
        have hrefs := hinv.saved z hready hnone
        exact (hold.refs hready).frame fun y hy => hmade y (hrefs.makes y hy).1
  · intro z hz hne
    exact absurd (hcpu.symm.trans hz) hne
  · intro z stack' pc'' heq
    cases heq
    exact hon

theorem Stacks.owned_keep (hthread : s'.thread = update s.thread y t)
    (hkstack : t.kstack = (s.thread y).kstack) (hpages : s'.stackPages = s.stackPages) (z : Slot)
    (g : Nat) : s'.stackPages g = some z ↔ (s'.thread z).kstack = g ∧ g ≠ 0 := by
  rw [hpages, hthread, field_update Thread.kstack hkstack]
  exact h.owned z g

theorem Stacks.owned_free (hthread : s'.thread = update s.thread y t)
    (hkstack : t.kstack = 0)
    (hpages : s'.stackPages = update s.stackPages (s.thread y).kstack none) (z : Slot)
    (g : Nat) : s'.stackPages g = some z ↔ (s'.thread z).kstack = g ∧ g ≠ 0 := by
  rw [hpages, hthread]
  by_cases hg : g = (s.thread y).kstack
  · rw [hg, update_self]
    refine ⟨fun hnone => (by cases hnone), ?_⟩
    rintro ⟨heq, hne⟩
    by_cases hz : z = y
    · subst hz
      rw [update_self, hkstack] at heq
      exact absurd heq.symm hne
    · rw [update_of_ne hz] at heq
      have hsame := ((h.owned z _).mpr ⟨heq, hne⟩).symm.trans ((h.owned y _).mpr ⟨rfl, hne⟩)
      cases hsame
      exact absurd rfl hz
  · rw [update_of_ne hg]
    by_cases hz : z = y
    · subst hz
      rw [update_self, hkstack, h.owned z g]
      exact ⟨fun hold => absurd hold.1.symm hg, fun hnew => absurd hnew.1.symm hnew.2⟩
    · rw [update_of_ne hz]
      exact h.owned z g

theorem Stacks.owned_give {page : Nat}
    (hthread : s'.thread = update s.thread y t) (hkstack : t.kstack = page)
    (hbare : (s.thread y).kstack = 0) (hpage : page ≠ 0) (hfree : s.stackPages page = none)
    (hpages : s'.stackPages = update s.stackPages page (some y)) (z : Slot) (g : Nat) :
    s'.stackPages g = some z ↔ (s'.thread z).kstack = g ∧ g ≠ 0 := by
  rw [hpages, hthread]
  by_cases hg : g = page
  · subst hg
    rw [update_self]
    by_cases hz : z = y
    · subst hz
      simp [hkstack, hpage]
    · rw [update_of_ne hz]
      refine ⟨fun heq => absurd (Option.some.inj heq).symm hz, fun hboth => ?_⟩
      rw [(h.owned z g).mpr hboth] at hfree
      cases hfree
  · rw [update_of_ne hg]
    by_cases hz : z = y
    · subst hz
      rw [update_self, hkstack, h.owned z g, hbare]
      exact ⟨fun hold => absurd hold.1.symm hold.2, fun hnew => absurd hnew.1.symm hg⟩
    · rw [update_of_ne hz]
      exact h.owned z g

theorem Stacks.off_of_embryo (hinv : Inv s) (hy : s.state y = .embryo) (c : Fin n) :
    (s.cpu c).thread ≠ some y := by
  intro hrun
  obtain ⟨stack, pc, hrun⟩ := exists_run hrun
  by_cases hsettled : pc.settled = true
  · have := hinv.running c y stack pc hrun hsettled
    simp [hy] at this
  · have := (h.locals.running c y stack pc hrun).settled (by simpa using hsettled)
    simp [hy] at this

theorem Stacks.leave (hinv : Inv s) (hcpu : s.cpu c = .run x stack pc)
    (hthread : s'.thread = update s.thread x t)
    (hcpu' : s'.cpu = update s.cpu c .scheduling) (hproc : s'.proc = s.proc)
    (hpages : s'.stackPages = s.stackPages) (hkstack : t.kstack = (s.thread x).kstack)
    (hcontext : t.context.stack = stack) (hstate : stackFits t.state (s.pstate x.1) t.kstack)
    (hallocs : t.context.resume.pc.allocs = pc.allocs)
    (hreadies : t.context.resume.pc.readies = pc.readies) : Stacks s' := by
  have hon := h.locals.running c x stack pc hcpu
  have hsame : ∀ y, (s'.thread y).kstack = (s.thread y).kstack := by
    rw [hthread]
    exact field_update Thread.kstack hkstack
  have hself := self_of_update hthread
  have hpstate : ∀ p, s'.pstate p = s.pstate p := fun p => by rw [State.pstate, hproc, State.pstate]
  refine h.store hinv hthread hcpu' (h.owned_keep hthread hkstack hpages) (fun z _ _ => hpstate z.1)
    (by rw [hpstate]; exact hstate) (Or.inl hkstack) ?_ ?_ ⟨fun _ _ => ?_, fun _ => ?_⟩
    (fun _ _ _ heq => by cases heq)
  · intro c' stack' pc'' hne hrun
    exact absurd (hinv.unique c' c x (cpu_thread hrun) (cpu_thread hcpu)) hne
  · intro z hz hne
    exact absurd (Option.some.inj ((cpu_thread hcpu).symm.trans hz)).symm hne
  · rw [hself, hcontext, hkstack]
    exact hon.stack
  · rw [hself]
    exact (hon.refs.congr hallocs hreadies).frame fun y _ => hsame y

theorem Stacks.keep (hinv : Inv s) (hcpu : s.cpu c = .run x stack pc)
    (hsettled : pc'.settled = true) (hthread : s'.thread = update s.thread y t)
    (hcpu' : s'.cpu = update s.cpu c (.run x stack pc'))
    (hnone : ∀ c, (s.cpu c).thread ≠ some y)
    (hproc : ∀ z, z ≠ y → s.state z = .zombie → s'.pstate z.1 = s.pstate z.1)
    (howned : ∀ z g, s'.stackPages g = some z ↔ (s'.thread z).kstack = g ∧ g ≠ 0)
    (hfits : stackFits t.state (s'.pstate y.1) t.kstack)
    (hkstack : t.kstack = (s.thread y).kstack ∨
      (s.state y = .embryo → (s.cpu c).thread = (s.thread y).maker))
    (hoff : OffStack s' y) (hrefs : StackRefs s' pc') : Stacks s' := by
  have hon := h.locals.running c x stack pc hcpu
  have hxy : x ≠ y := fun heq => hnone c (heq ▸ cpu_thread hcpu)
  have hstay : s'.thread x = s.thread x := by rw [hthread, update_of_ne hxy]
  refine h.store hinv hthread hcpu' howned hproc hfits hkstack ?_ ?_ hoff ?_
  · intro c' stack' pc'' _ hrun
    exact absurd (cpu_thread hrun) (hnone c')
  · intro z hz _
    exact (cpu_thread hcpu).symm.trans hz
  · intro z stack' pc'' heq
    cases heq
    exact hon.congr (by rw [hstay]) (by simp [hsettled]) hrefs

end

end

theorem stacks_switchTo (hinv : Inv s) (h : Stacks s) (hcpu : s.cpu c = .scheduling)
    (hx : s.state x = .runnable) : Stacks (switchTo s c x) := by
  have hnone := hinv.off_of_runnable hcpu hx
  have hready : s.ready x := Or.inl hx
  have hold := h.locals.resting x hnone
  have hkstack : (s.thread x).kstack ≠ 0 := by
    have := h.fits x
    rwa [hx] at this
  have hsame : ∀ y, ((switchTo s c x).thread y).kstack = (s.thread y).kstack :=
    field_update Thread.kstack rfl
  have hrunning := state_switchTo s c x
  refine h.store hinv rfl rfl (h.owned_keep rfl rfl rfl) (fun _ _ _ => rfl) hkstack (Or.inl rfl) ?_
    ?_ (.of_state (by simp [hrunning]) (by simp [hrunning])) ?_
  · exact fun c' _ _ _ hrun => absurd (cpu_thread hrun) (hnone c')
  · exact fun z hz => absurd hz (by rw [hcpu]; simp [Cpu.thread])
  · intro z stack' pc' heq
    cases heq
    refine ⟨?_, by rw [hsame]; exact hkstack, fun hsettled => ?_,
      (hold.refs hready).frame fun y _ => hsame y⟩
    · rw [hsame]
      exact hold.context (Or.inr hready) hkstack
    · cases hresume : (s.thread x).context.resume <;>
        simp [hresume, Resume.pc, Pc.settled] at hsettled

theorem stacks_exit (hinv : Inv s) (h : Stacks s)
    (hcpu : s.cpu c = .run x stack (.code (.work .exit))) (halone : s.alone c x.1)
    (hmade : ∀ i, s.state (x.1, i) = .embryo → (s.thread (x.1, i)).kstack ≠ 0) :
    Stacks (exit s c x stack) := by
  have hon := h.locals.running c x stack _ hcpu
  obtain ⟨-, -, hpages, -⟩ := exit_kept s c x stack
  have hothers := exit_others s c x stack
  have hwoken := h.wake hothers rfl
  have hkstack : ∀ y, ((exit s c x stack).thread y).kstack = (s.thread y).kstack := by
    intro y
    by_cases hy : y.1 = x.1
    · rw [exit_own hy]
      split <;> rfl
    · have := hothers.thread y
      simp only [hy, if_false] at this
      rcases this with heq | ⟨-, heq⟩ <;> rw [heq]
  have hrunnable := hinv.runnable hcpu rfl
  have hpstate : ∀ p, (exit s c x stack).pstate p = if p = x.1 then .zombie else s.pstate p :=
    fun p => (exit_proc s c x stack p).2.2
  refine hwoken.sweep (hinv.wake hothers) (p := x.1) ?_ ?_ ?_ ?_ ?_ ?_ (cpu_thread hcpu)
    (exit_cpu s c x stack) ?_
  · intro z hz
    exact ⟨(if_neg hz).symm, by rw [hpstate, if_neg hz]; rfl⟩
  · intro z hz
    rw [State.state, exit_own hz]
    split
    · exact Or.inl ‹_›
    · exact Or.inr rfl
  · rintro ⟨p, i⟩ rfl
    have hfits := h.fits (x.1, i)
    have hthread : (exit s c x stack).thread (x.1, i) = _ := exit_own rfl
    rw [hkstack, hpstate, if_pos rfl, State.state, hthread]
    split
    · rename_i hunused
      rw [hunused] at hfits
      rw [State.state] at hunused
      rw [hunused]
      exact hfits
    · rename_i hused
      have hnonzero : (s.thread (x.1, i)).kstack ≠ 0 := by
        cases hstate : s.state (x.1, i) <;> simp_all
      simp [hnonzero]
  · intro z _
    by_cases hz : z.1 = x.1
    · simp [hkstack, hz]
    · simp [hz]
  · intro z g
    rw [hkstack, hpages]
    exact h.owned z g
  · intro c' z hne hrun hz
    refine halone c' hne ?_
    change (s.cpu c').thread = some z at hrun
    rw [hrun, Option.map_some, hz]
  · refine hon.congr (hkstack x) (fun _ => ?_) (.plain rfl rfl)
    have hused : s.state x ≠ .unused := by
      intro hunused
      have := h.fits x
      rw [hunused] at this
      exact hon.nonzero this
    rw [State.state, exit_own rfl, if_neg hused]

theorem mem_waitFrees {q : Fin nproc} (hdead : ∀ i, ProcState.dead (s.state (q, i))) :
    y ∈ waitFrees s q ↔ y.1 = q ∧ s.state y = .zombie := by
  have htake : ((pthreads q).takeWhile fun y => ProcState.dead (s.thread y).state) =
      pthreads q := by
    refine List.takeWhile_eq_self_iff.mpr fun z hz => ?_
    obtain ⟨i, -, rfl⟩ := List.mem_map.mp hz
    exact decide_eq_true (hdead i)
  rw [waitFrees, htake, List.mem_filter]
  simp only [pthreads, List.mem_map, List.mem_finRange, true_and, decide_eq_true_eq]
  constructor
  · rintro ⟨⟨i, rfl⟩, hzombie⟩
    exact ⟨rfl, hzombie⟩
  · rintro ⟨rfl, hzombie⟩
    exact ⟨⟨y.2, rfl⟩, hzombie⟩

theorem stacks_waitReap {q : Fin nproc} (hinv : Inv s) (h : Stacks s)
    (hcpu : s.cpu c = .run x stack pc) (hpc : AtWait s pc) (hq : s.pstate q = .zombie) :
    Stacks (waitReap s c x stack q) := by
  have hon := h.locals.running c x stack _ hcpu
  have hmem : ∀ {y}, y ∈ waitFrees s q ↔ y.1 = q ∧ s.state y = .zombie :=
    mem_waitFrees fun i => hinv.dead_of_dead (by simp [hq]) rfl
  have hkstack : ∀ y, ((waitReap s c x stack q).thread y).kstack =
      if y.1 = q ∧ s.state y = .zombie then 0 else (s.thread y).kstack := by
    intro y
    simp only [waitReap, returnTo, State.setCpu, State.setProc, hmem]
    split <;> rfl
  have hstate : ∀ y, (waitReap s c x stack q).state y = s.state y := by
    intro y
    simp only [waitReap, returnTo, State.setCpu, State.setProc, State.state]
    split <;> rfl
  have hout : ∀ c' z, c' ≠ c → (s.cpu c').thread = some z → z.1 ≠ q := by
    intro c' z hne hrun hz
    obtain ⟨stack', pc', hrun⟩ := exists_run hrun
    rcases hinv.alive c' z stack' pc' hrun with hlive | ⟨-, hexited⟩
    · simp [hz, hq] at hlive
    · exact hinv.wait_alone hcpu hpc hne (by rw [hrun, hexited]; rfl)
  have hx : x.1 ≠ q := by
    intro hx
    have := hinv.runnable hcpu (hpc.plain x).1
    simp [hx, hq] at this
  refine h.sweep hinv (p := q) ?_ ?_ ?_ ?_ ?_ hout (cpu_thread hcpu) rfl ?_
  · intro z hz
    refine ⟨?_, ?_⟩
    · simp only [waitReap, returnTo, State.setCpu, State.setProc, hmem]
      exact if_neg fun hboth => hz hboth.1
    · simp [waitReap, State.pstate, update_of_ne hz]
  · intro z hz
    rw [hstate]
    exact hinv.dead_of_dead (by simp [hq]) hz
  · intro z hz
    have hunused : (waitReap s c x stack q).pstate q = .unused := by
      simp [waitReap, State.pstate]
    have hfits := h.fits z
    rw [hkstack, hstate, hunused]
    rcases hinv.dead_of_dead (by simp [hq]) hz with hdead | hdead
    · simp only [hdead, stackFits] at hfits
      simp [hdead, hfits]
    · simp [hdead, hz]
  · intro z hz
    rw [hkstack, if_neg (by simp [hz])]
  · intro z g
    rw [hkstack]
    have hpages : (waitReap s c x stack q).stackPages g =
        if g ∈ (waitFrees s q).map (fun y => (s.thread y).kstack) then none
        else s.stackPages g := rfl
    rw [hpages]
    by_cases hz : z.1 = q ∧ s.state z = .zombie
    · rw [if_pos hz]
      refine ⟨fun heq => ?_, fun hnew => absurd hnew.1.symm hnew.2⟩
      obtain ⟨hg, heq⟩ := Option.ite_none_left_eq_some.mp heq
      exact absurd (List.mem_map.mpr ⟨z, hmem.mpr hz, ((h.owned z g).mp heq).1⟩) hg
    · rw [if_neg hz]
      refine ⟨fun heq => (h.owned z g).mp (Option.ite_none_left_eq_some.mp heq).2, fun hboth => ?_⟩
      have heq := (h.owned z g).mpr hboth
      refine Option.ite_none_left_eq_some.mpr ⟨fun hg => ?_, heq⟩
      obtain ⟨z', hz', rfl⟩ := List.mem_map.mp hg
      cases ((h.owned z' _).mpr ⟨rfl, hboth.2⟩).symm.trans heq
      exact hz (hmem.mp hz')
  · have hsame : ((waitReap s c x stack q).thread x).kstack = (s.thread x).kstack := by
      rw [hkstack, if_neg fun hboth => hx hboth.1]
    exact hon.congr hsame (fun hsettled => by cases hsettled) (.plain rfl rfl)

theorem stacks_allocproc (hinv : Inv s) (h : Stacks s)
    (hcpu : s.cpu c = .run x stack (.code .allocproc)) (hp : s.pstate p = .unused) :
    Stacks (allocprocAt s c x stack p) := by
  have hon := h.locals.running c x stack _ hcpu
  have hkstack : ∀ y, ((allocprocAt s c x stack p).thread y).kstack = (s.thread y).kstack := by
    intro y
    simp only [allocprocAt, State.setCpu, State.setLock]
    split <;> rfl
  refine h.sweep hinv (p := p) ?_ ?_ ?_ ?_ ?_ ?_ (cpu_thread hcpu) rfl ?_
  · intro z hz
    refine ⟨if_neg hz, ?_⟩
    simp [allocprocAt, State.pstate, update_of_ne hz]
  · intro z hz
    simp [allocprocAt, State.state, hz]
  · intro z hz
    have hstate : (allocprocAt s c x stack p).state z = .unused := by
      simp [allocprocAt, State.state, hz]
    have hfits := h.fits z
    rw [hstate, hkstack]
    rcases hinv.dead_of_dead (by simp [hp]) hz with hdead | hdead
    · rw [hdead] at hfits
      exact hfits
    · rw [hdead, hz, hp] at hfits
      exact hfits.2.mpr rfl
  · exact fun z _ => hkstack z
  · intro z g
    rw [hkstack]
    exact h.owned z g
  · intro c' z _ hrun hz
    obtain ⟨stack', pc', hrun⟩ := exists_run hrun
    have := hinv.alive c' z stack' pc' hrun
    simp [hz, hp] at this
  · exact hon.congr (hkstack x) (fun hsettled => by cases hsettled) (.plain rfl rfl)

theorem Inv.maker (h : Inv s) (hcpu : s.cpu c = .run x stack pc) (hy : pc.makes = some y) :
    s.state y = .embryo ∧ (s.cpu c).thread = (s.thread y).maker := by
  obtain ⟨hembryo, hmaker⟩ := (h.refs c x stack pc hcpu).makes y hy
  exact ⟨hembryo, by rw [hmaker, cpu_thread hcpu]⟩

theorem stacks_giveBack (hinv : Inv s) (h : Stacks s) (hcpu : s.cpu c = .run x stack pc)
    (hpc : pc'.settled = true) (hplain : pc'.allocs = none ∧ pc'.readies = none)
    (hnone : ∀ c, (s.cpu c).thread ≠ some y)
    (hthread : s'.thread =
      update s.thread y { s.thread y with kstack := 0, state := .unused })
    (hcpu' : s'.cpu = update s.cpu c (.run x stack pc'))
    (hproc : ∀ z, z ≠ y → s.state z = .zombie → s'.pstate z.1 = s.pstate z.1)
    (howned : ∀ z g, s'.stackPages g = some z ↔ (s'.thread z).kstack = g ∧ g ≠ 0)
    (hkstack : 0 = (s.thread y).kstack ∨
      (s.state y = .embryo → (s.cpu c).thread = (s.thread y).maker)) : Stacks s' := by
  have hunused : s'.state y = .unused := by rw [State.state, hthread, update_self]
  exact h.keep hinv hcpu hpc hthread hcpu' hnone hproc howned rfl hkstack
    (.of_state (by simp [hunused]) (by simp [hunused])) (.plain hplain.1 hplain.2)

theorem stacks_reap (hinv : Inv s) (h : Stacks s) (hcpu : s.cpu c = .run x stack pc)
    (hpc : pc'.settled = true) (hplain : pc'.allocs = none ∧ pc'.readies = none)
    (hy : s.state y = .zombie) (hnone : ∀ c, (s.cpu c).thread ≠ some y)
    (hthread : s'.thread =
      update s.thread y { s.thread y with kstack := 0, state := .unused })
    (hproc : s'.proc = s.proc)
    (hpages : s'.stackPages = update s.stackPages (s.thread y).kstack none)
    (hcpu' : s'.cpu = update s.cpu c (.run x stack pc')) : Stacks s' := by
  have hpstate : ∀ p, s'.pstate p = s.pstate p := fun p => by rw [State.pstate, hproc, State.pstate]
  exact stacks_giveBack hinv h hcpu hpc hplain hnone hthread hcpu' (fun z _ _ => hpstate z.1)
    (h.owned_free hthread rfl hpages) (Or.inr (by simp [hy]))

theorem Stacks.fork_ne {z : Slot} (h : Stacks s) (hinv : Inv s)
    (hcpu : s.cpu c = .run x stack pc) (hp : pc.forks = some p) (hz : s.state z = .zombie) :
    z.1 ≠ p := by
  intro heq
  have hfits := h.fits z
  rw [hz, heq, ((hinv.refs c x stack pc hcpu).forks p hp).1] at hfits
  exact hfits.1 rfl

theorem stacks_start (hinv : Inv s) (h : Stacks s) (hcpu : s.cpu c = .run x stack pc)
    (hy : pc.readies = some y)
    (hthread : s'.thread = update s.thread y { s.thread y with state := .runnable })
    (hproc : ∀ z, z ≠ y → s.state z = .zombie → s'.pstate z.1 = s.pstate z.1)
    (hpages : s'.stackPages = s.stackPages)
    (hcpu' : s'.cpu = update s.cpu c (.run x stack (.code (.work .syscall)))) :
    Stacks s' := by
  have hkstack := (h.locals.running c x stack pc hcpu).refs.ready y hy
  obtain ⟨hembryo, -⟩ := hinv.maker hcpu (makes_of_readies hy)
  have hnone := h.off_of_embryo hinv hembryo
  have hself : s'.thread y = { s.thread y with state := .runnable } := by
    rw [hthread, update_self]
  refine h.keep hinv hcpu rfl hthread hcpu' hnone hproc (h.owned_keep hthread rfl hpages) hkstack
    (Or.inl rfl) ⟨fun _ _ => ?_, fun _ => ?_⟩ (.plain rfl rfl)
  · rw [hself]
    exact (h.locals.resting y hnone).context (Or.inl hembryo) hkstack
  · rw [hself]
    rcases (hinv.refs c x stack pc hcpu).readies y hy with heq | heq <;>
      · rw [heq]
        exact .plain rfl rfl

variable {a : Act n}

theorem stacks_step (hinv : Inv s) (h : Stacks s) (hguard : Careful s a)
    (hstep : step s a = some s') : Stacks s' := by
  obtain ⟨hcalm, hexit, hreap⟩ := hguard
  cases effect_step hstep with
  | moves x stack pc pc' _ hcpu hkept hcpu' hmoves =>
    have hon := h.locals.running _ x stack pc hcpu
    refine h.goto hcpu (fun y => ?_) (fun p => hkept.state p) hkept.stackPages hcpu'
      hmoves.settled.2 (hon.refs.congr hmoves.makes_eq.1 hmoves.makes_eq.2)
    rw [State.state, hkept.thread]
    exact ⟨rfl, rfl, rfl⟩
  | acquire hcpu | release hcpu =>
    exact h.move (fun _ => ⟨rfl, rfl, rfl⟩) (fun _ => rfl) rfl rfl (by rw [hcpu]; rfl)
      (fun _ _ _ heq => by cases heq)
  | switchTo x hcpu hx => exact stacks_switchTo hinv h hcpu hx
  | wakeup chan => exact h.wake (wakes_wakeup1 s _) rfl
  | take x stack mode hold hcpu | beginOp x stack mode hcpu | drop x hold | endOp x =>
    exact h.wake (.of_eq rfl rfl rfl rfl rfl) rfl
  | yield x stack k hcpu =>
    have hon := h.locals.running _ x stack _ hcpu
    exact h.leave hinv hcpu (yield_thread s _ x stack k) rfl rfl rfl rfl rfl hon.nonzero rfl rfl
  | sleep x stack chan k hcpu =>
    have hon := h.locals.running _ x stack _ hcpu
    exact h.leave hinv hcpu (sleep_thread s _ x stack chan k) rfl rfl rfl rfl rfl hon.nonzero rfl
      rfl
  | waitSleep x stack pc hcpu hpc =>
    have hon := h.locals.running _ x stack _ hcpu
    refine h.leave hinv hcpu (waitSleep_thread s _ x stack) rfl rfl rfl rfl rfl hon.nonzero ?_ ?_
    · rcases hpc with ⟨rfl, -⟩ | rfl <;> rfl
    · rcases hpc with ⟨rfl, -⟩ | rfl <;> rfl
  | waitReap x stack pc q hcpu hpc hq hgood =>
    exact stacks_waitReap hinv h hcpu hpc (zombieChild_some hq)
  | allocproc x stack p hcpu hp => exact stacks_allocproc hinv h hcpu hp
  | allocAbandoned x stack p hcpu =>
    exact h.goto hcpu (fun _ => ⟨rfl, rfl, rfl⟩) (field_update Proc.state rfl) rfl rfl rfl
      (.plain rfl rfl)
  | allocFound x stack p i rest caller hcpu hi =>
    have hbare : (s.thread (p, i)).kstack = 0 := by
      have := h.fits (p, i)
      rwa [hi] at this
    have hnone : ∀ c, (s.cpu c).thread ≠ some (p, i) := by
      intro c hrun
      obtain ⟨stack', pc', hrun⟩ := exists_run hrun
      exact (h.locals.running c _ stack' pc' hrun).nonzero hbare
    have hself : ((allocFound s a.cpu x stack (p, i) caller).thread (p, i)).kstack = 0 := by
      simp [allocFound, hbare]
    refine h.keep hinv hcpu rfl rfl rfl hnone (fun _ _ _ => rfl) (h.owned_keep rfl rfl rfl) trivial
      (Or.inl rfl) ⟨fun _ hne => absurd hself hne, fun hx => ?_⟩
      ⟨fun y hy => ?_, by simp [Pc.readies]⟩
    · simp [State.state, allocFound] at hx
    · cases hy
      exact hself
  | allocTid x stack y tid caller hcpu =>
    have hon := h.locals.running _ x stack _ hcpu
    refine h.goto hcpu (fun z => ?_) (fun _ => rfl) rfl rfl rfl
      ⟨fun y' hy' => ?_, by simp [Pc.readies, Code.readies]⟩
    · by_cases hz : z = y
      · subst hz
        simp [allocTid, State.state]
      · simp [allocTid, State.state, update_of_ne hz]
    · cases hy'
      exact hon.refs.bare y rfl
  | stackReady x stack y caller page hcpu hpage hfree =>
    have hon := h.locals.running _ x stack _ hcpu
    have hbare := hon.refs.bare y rfl
    obtain ⟨hembryo, hmaker⟩ := hinv.maker hcpu rfl
    have hself : (stackReady s a.cpu x stack y caller page).thread y =
        { s.thread y with kstack := page, context := ⟨page, .forkret⟩ } := update_self ..
    refine h.keep hinv hcpu rfl rfl rfl (h.off_of_embryo hinv hembryo) (fun _ _ _ => rfl)
      (h.owned_give rfl rfl hbare hpage hfree rfl) ?_ (Or.inr fun _ => hmaker)
      ⟨fun _ _ => ?_, fun _ => ?_⟩ ⟨fun y' hy' => ?_, fun y' hy' => ?_⟩
    · rw [State.state] at hembryo
      simp [hembryo]
    · rw [hself]
    · rw [hself]
      exact .plain rfl rfl
    · cases caller <;> cases hy'
    · have hy : y = y' := by
        cases caller <;> simpa [Pc.readies, Caller.next, Code.readies] using hy'
      rw [← hy, hself]
      exact hpage
  | stackFailed x stack y caller hcpu =>
    have hon := h.locals.running _ x stack _ hcpu
    have hbare := hon.refs.bare y rfl
    obtain ⟨hembryo, -⟩ := hinv.maker hcpu rfl
    have hpstate : ∀ p, (stackFailed s a.cpu x stack y caller).pstate p = s.pstate p := by
      cases caller with
      | kthreadCreate => exact fun _ => rfl
      | fork => exact field_update Proc.state rfl
    have hthread : (stackFailed s a.cpu x stack y caller).thread =
        update s.thread y { s.thread y with kstack := 0, state := .unused } := by
      cases caller <;> rfl
    exact stacks_giveBack hinv h hcpu rfl ⟨rfl, rfl⟩ (h.off_of_embryo hinv hembryo) hthread
      (by cases caller <;> rfl) (fun z _ _ => hpstate z.1)
      (h.owned_keep hthread hbare.symm (by cases caller <;> rfl)) (Or.inl hbare.symm)
  | kthreadCreate x stack y hcpu =>
    exact stacks_start hinv h hcpu rfl rfl (fun _ _ _ => rfl) rfl rfl
  | forkFailed x stack y hcpu =>
    obtain ⟨hembryo, hmaker⟩ := hinv.maker hcpu rfl
    refine stacks_giveBack hinv h hcpu rfl ⟨rfl, rfl⟩ (h.off_of_embryo hinv hembryo) rfl rfl
      (fun z _ hz => ?_) (h.owned_free rfl rfl rfl) (Or.inr fun _ => hmaker)
    exact congrArg Proc.state (update_of_ne (h.fork_ne hinv hcpu rfl hz) ..)
  | forkDone x stack y hcpu =>
    refine stacks_start hinv h hcpu rfl rfl (fun z _ hz => ?_) rfl rfl
    exact congrArg Proc.state (update_of_ne (h.fork_ne hinv hcpu rfl hz) ..)
  | exit x stack hcpu hcmd hreleased hfree =>
    simp only [Calm, hcpu, hcmd] at hcalm
    exact stacks_exit hinv h hcpu hcalm (hexit (by rw [hcmd]; rfl) x (by rw [hcpu]; rfl))
  | exited x stack hcpu =>
    have hon := h.locals.running _ x stack _ hcpu
    refine h.leave hinv hcpu rfl rfl rfl rfl rfl rfl ?_ rfl rfl
    exact h.fits x
  | kthreadExit x stack hcpu hfree =>
    have hon := h.locals.running _ x stack _ hcpu
    have hrunnable := hinv.runnable hcpu rfl
    have hself : (kthreadExit s a.cpu x stack).thread x = { s.thread x with state := .zombie } :=
      update_self ..
    have hdead : (kthreadExit s a.cpu x stack).state x = .zombie := by rw [State.state, hself]
    refine h.store hinv rfl rfl (h.owned_keep rfl rfl rfl) (fun _ _ _ => rfl) ?_ (Or.inl rfl) ?_ ?_
      (.of_state (by simp [hdead]) (by simp [hdead])) ?_
    · have hpstate : (kthreadExit s a.cpu x stack).pstate x.1 = .runnable := hrunnable
      simp [hpstate, hon.nonzero]
    · intro c' stack' pc' hne hrun
      exact absurd (hinv.unique c' _ x (cpu_thread hrun) (cpu_thread hcpu)) hne
    · exact fun z hz _ => (cpu_thread hcpu).symm.trans hz
    · intro z stack' pc' heq
      cases heq
      exact hon.congr (by rw [hself]) (fun _ => hdead) (.plain rfl rfl)
  | kthreadExitEnd x stack hcpu =>
    have hwakes := wakes_wakeup2 s x.1 (some (.thread x))
    have hwoken := h.wake hwakes rfl
    unfold kthreadExitEnd
    simp only
    split
    · unfold enterExit
      split <;>
        exact hwoken.goto hcpu (fun _ => ⟨rfl, rfl, rfl⟩) (fun _ => rfl) rfl rfl rfl
          (.plain rfl rfl)
    · exact hwoken.leave (hinv.wake hwakes) hcpu rfl rfl rfl rfl rfl rfl (hwoken.fits x) rfl rfl
  | joinDone x stack y id hcpu hy =>
    exact h.goto hcpu (fun _ => ⟨rfl, rfl, rfl⟩) (fun _ => rfl) rfl rfl rfl (.plain rfl rfl)
  | joinReap x stack y id looped hcpu | execReap x stack y rest threadsAlive hcpu =>
    exact stacks_reap hinv h hcpu rfl ⟨rfl, rfl⟩ ((hinv.refs _ x stack _ hcpu).reaps y rfl)
      (hreap y (by rw [hcpu]; rfl)) rfl rfl rfl rfl
  | execWake x stack y rest hcpu =>
    simp only [Calm, hcpu, step_go hcpu (by simp) hstep] at hcalm
    exact (h.wake (wakes_setState hcalm) rfl).goto hcpu (fun _ => ⟨rfl, rfl, rfl⟩) (fun _ => rfl)
      rfl rfl rfl (.plain rfl rfl)

theorem stacks_boot (n : Nat) {page : Nat} (hpage : page ≠ 0) : Stacks (boot n page) where
  owned := fun y g => by
    by_cases hy : y = (proc0, thread0)
    · by_cases hg : g = page
      · simp [hy, hg, hpage]
      · simp [hy, hg, Ne.symm hg]
    · by_cases hg : g = page
      · simp [hy, Ne.symm hy, hg, Ne.symm hpage]
      · simp only [boot, hy, hg, if_false, reduceCtorEq, false_iff, not_and, not_not]
        exact fun heq => heq.symm
  fits := fun y => by
    by_cases hy : y = (proc0, thread0)
    · simp [State.state, hy, hpage]
    · simp [State.state, hy]
  locals := by
    refine ⟨fun c x stack pc hcpu => (by simp at hcpu), fun x _ => ?_⟩
    by_cases hx : x = (proc0, thread0)
    · refine ⟨fun _ _ => by simp [hx], fun _ => ?_⟩
      simpa [hx] using .plain rfl rfl
    · exact ⟨fun _ hne => absurd (by simp [hx]) hne,
        fun hready => by simp [State.state, hx] at hready⟩

theorem Stacks.freesSound {next : State n} (h : Stacks s)
    (hnodup : (reapedThreads s a).Nodup)
    (hgood : ∀ y ∈ reapedThreads s a, (s.thread y).kstack ≠ 0 ∧ (∀ c, (s.cpu c).thread ≠ some y) ∧
      next.stackPages (s.thread y).kstack = none) : FreesSound s a next := by
  have howned : ∀ y ∈ reapedThreads s a, s.stackPages (s.thread y).kstack = some y :=
    fun y hy => (h.owned y _).mpr ⟨rfl, (hgood y hy).1⟩
  refine ⟨fun y g hmem => ?_, ?_, fun y g hmem => ?_, fun y g hmem c x pc hcpu => ?_⟩
  · obtain ⟨y, hy, heq⟩ := List.mem_map.mp hmem
    cases heq
    exact ⟨(hgood y hy).1, howned y hy⟩
  · rw [frees, List.map_map]
    refine List.Nodup.map_on (fun y hy z hz heq => ?_) hnodup
    have hsame := howned y hy
    rw [show (s.thread y).kstack = (s.thread z).kstack from heq, howned z hz] at hsame
    exact (Option.some.inj hsame).symm
  · obtain ⟨y, hy, heq⟩ := List.mem_map.mp hmem
    cases heq
    exact (hgood y hy).2.2
  · obtain ⟨y, hy, heq⟩ := List.mem_map.mp hmem
    cases heq
    have hon := h.locals.running c x _ pc hcpu
    have hsame := (h.owned x _).mpr ⟨hon.stack.symm, (hgood y hy).1⟩
    cases hsame.symm.trans (howned y hy)
    exact (hgood y hy).2.1 c (cpu_thread hcpu)

theorem reap_freesSound (hinv : Inv s) (h : Stacks s)
    (hcpu : s.cpu a.cpu = .run x stack pc) (hy : pc.reaps = some y) (hnear : y.1 = x.1)
    (hsettled : pc.settled = true) (hreaped : reapedThreads s a = [y])
    (hnone : ∀ c, (s.cpu c).thread ≠ some y)
    (hnext : (s.thread y).kstack ≠ 0 → s'.stackPages (s.thread y).kstack = none) :
    FreesSound s a s' := by
  have hfits := h.fits y
  rw [(hinv.refs _ x stack pc hcpu).reaps y hy, hnear, hinv.runnable hcpu hsettled] at hfits
  have hkstack : (s.thread y).kstack ≠ 0 := fun hzero => by simpa using hfits.2.mp hzero
  refine h.freesSound (by simp [hreaped]) fun z hz => ?_
  rw [hreaped, List.mem_singleton] at hz
  subst hz
  exact ⟨hkstack, hnone, hnext hkstack⟩

theorem wait_freesSound (hinv : Inv s) (h : Stacks s)
    (hcpu : s.cpu a.cpu = .run x stack pc) (hpc : AtWait s pc)
    (hreaped : reapedThreads s a = match zombieChild s x.1 with
      | some q => waitFrees s q
      | none => []) (hnext : s' = waitScan s a.cpu x stack) : FreesSound s a s' := by
  cases hchild : zombieChild s x.1 with
  | none =>
    rw [hchild] at hreaped
    exact h.freesSound (by simp [hreaped]) (by simp [hreaped])
  | some q =>
    rw [hchild] at hreaped
    have hq := zombieChild_some hchild
    have hdead : ∀ i, ProcState.dead (s.state (q, i)) :=
      fun i => hinv.dead_of_dead (by simp [hq]) rfl
    have hkstack : ∀ y, y.1 = q → s.state y = .zombie → (s.thread y).kstack ≠ 0 := by
      intro y hy hzombie hzero
      have hfits := h.fits y
      rw [hzombie, hy, hq] at hfits
      simpa using hfits.2.mp hzero
    have hstops : waitStops s q = none := by
      refine List.find?_eq_none.mpr fun y hy => ?_
      obtain ⟨i, -, rfl⟩ := List.mem_map.mp hy
      simp only [decide_eq_true_eq, not_or, not_not, not_and]
      exact ⟨hdead i, fun hzombie hzero => hkstack (q, i) rfl hzombie hzero⟩
    simp only [waitScan, hchild, hstops] at hnext
    refine h.freesSound ?_ fun y hy => ?_
    · rw [hreaped]
      refine List.Nodup.filter _ (List.Nodup.sublist (List.takeWhile_sublist _) ?_)
      exact List.Nodup.map (fun i j hij => (Prod.mk.inj hij).2) (List.nodup_finRange nthread)
    · rw [hreaped] at hy
      obtain ⟨hyq, hzombie⟩ := (mem_waitFrees hdead).mp hy
      refine ⟨hkstack y hyq hzombie, fun c' hrun => ?_, ?_⟩
      · obtain ⟨stack', pc', hrun⟩ := exists_run hrun
        have hne : c' ≠ a.cpu := by
          rintro rfl
          cases hcpu.symm.trans hrun
          have := hinv.runnable hcpu (hpc.plain x).1
          simp [hyq, hq] at this
        rcases hinv.alive c' y stack' pc' hrun with hlive | ⟨-, hexited⟩
        · simp [hyq, hq] at hlive
        · exact hinv.wait_alone hcpu hpc hne (by rw [hrun, hexited]; rfl)
      · rw [hnext]
        exact if_pos (List.mem_map.mpr ⟨y, hy, rfl⟩)

theorem freesSound_step (hinv : Inv s) (h : Stacks s) (hguard : Careful s a)
    (hstep : step s a = some s') : FreesSound s a s' := by
  obtain ⟨c, cmd⟩ := a
  have hreap := hguard.2.2
  have hnil : reapedThreads s ⟨c, cmd⟩ = [] → FreesSound s ⟨c, cmd⟩ s' :=
    fun heq => h.freesSound (by simp [heq]) (by simp [heq])
  cases hcpu : s.cpu c with
  | idle | scheduling => exact hnil (by simp [reapedThreads, hcpu])
  | run x stack pc =>
    cases pc with
    | code k =>
      cases k with
      | copyuvm y =>
        cases cmd with
        | copyuvm ok =>
          cases ok with
          | false =>
            simp only [step, hcpu, codeStep, Bool.false_eq_true, if_false,
              Option.some.injEq] at hstep
            have hembryo := ((hinv.refs c x stack _ hcpu).makes y rfl).1
            have hreaped : reapedThreads s ⟨c, .copyuvm false⟩ = [y] := by
              simp [reapedThreads, hcpu]
            refine h.freesSound (by simp [hreaped]) fun z hz => ?_
            rw [hreaped, List.mem_singleton] at hz
            subst hz
            refine ⟨(h.locals.running c x stack _ hcpu).refs.ready z rfl,
              h.off_of_embryo hinv hembryo, ?_⟩
            rw [← hstep]
            exact update_self ..
          | true => exact hnil (by simp [reapedThreads, hcpu])
        | _ => exact hnil (by simp [reapedThreads, hcpu])
      | wait =>
        cases cmd with
        | go =>
          simp only [step, hcpu, codeStep] at hstep
          obtain ⟨hfree, hresult⟩ := Option.ite_none_right_eq_some.mp hstep
          exact wait_freesSound hinv h hcpu (Or.inl ⟨rfl, hfree⟩) (by simp [reapedThreads, hcpu])
            (Option.some.inj hresult).symm
        | _ => exact hnil (by simp [reapedThreads, hcpu])
      | _ => exact hnil (by simp [reapedThreads, hcpu])
    | waitScan =>
      cases cmd <;> simp only [step, hcpu, reduceCtorEq] at hstep
      exact wait_freesSound hinv h hcpu (Or.inr rfl) (by simp [reapedThreads, hcpu])
        (Option.some.inj hstep).symm
    | joinReap y id looped =>
      cases cmd <;> simp only [step, hcpu, reduceCtorEq] at hstep
      have hnone := hreap y (by rw [hcpu]; rfl)
      have hrefs := hinv.refs c x stack _ hcpu
      have hzombie : (s.thread y).state = .zombie := hrefs.reaps y rfl
      refine reap_freesSound hinv h hcpu rfl hrefs.near rfl (by simp [reapedThreads, hcpu, hzombie])
        hnone fun hkstack => ?_
      simp only [lockedStep, joinReap, hzombie, hkstack, reduceCtorEq, and_false, if_false,
        Option.some.injEq] at hstep
      rw [← hstep]
      exact update_self ..
    | execReap y rest threadsAlive =>
      cases cmd <;> simp only [step, hcpu, reduceCtorEq] at hstep
      have hnone := hreap y (by rw [hcpu]; rfl)
      have hrefs := hinv.refs c x stack _ hcpu
      refine reap_freesSound hinv h hcpu rfl hrefs.near rfl (by simp [reapedThreads, hcpu]) hnone
        fun hkstack => ?_
      simp only [lockedStep, execReap, hkstack, if_false, Option.some.injEq] at hstep
      rw [← hstep]
      exact update_self ..
    | _ => exact hnil (by simp [reapedThreads, hcpu])

theorem kernel_stack_lifecycle {page : Nat} {labels : List (Act n)} (hpage : page ≠ 0)
    (hmeets : Meets step Careful (boot n page) labels) :
    Along step FreesSound (boot n page) labels := by
  have hkeep : ∀ (s : State n) a next, Inv s ∧ Stacks s → Careful s a → step s a = some next →
      (Inv next ∧ Stacks next) ∧ FreesSound s a next := by
    rintro s a next ⟨hinv, hstacks⟩ hguard hstep
    exact ⟨⟨inv_step hinv hguard.1 hstep, stacks_step hinv hstacks hguard hstep⟩,
      freesSound_step hinv hstacks hguard hstep⟩
  exact along_of_invariant hkeep ⟨inv_boot n page, stacks_boot n hpage⟩ hmeets

/-- A thread leaves by `kthread_exit` and is joined; another one is made in its
place, and then the process exits and `init` frees its threads. -/
def joinedThenWaited : List (Act 1) :=
  twoThreads onlyCpu ++ on onlyCpu [.call (.kthreadJoin 3), .go, .go, .go, .go, .go, .go,
    .pick (proc1, thread1), .call .kthreadExit, .go, .go, .pick (proc1, thread0), .go, .go, .go,
    .ret, .call .kthreadCreate, .go, .go, .go, .go, .kalloc 5, .go, .ret, .call .exit, .exit, .go,
    .pick (proc0, thread0), .go]

theorem kernel_stack_lifecycle_joined_then_waited :
    ∃ final, run step (boot 1 1) joinedThenWaited = some final ∧
      (final.cpu onlyCpu).thread = some (proc0, thread0) ∧
      Along step FreesSound (boot 1 1) joinedThenWaited := by
  obtain ⟨final, hfinal, hthread⟩ : ∃ final, run step (boot 1 1) joinedThenWaited = some final ∧
      (final.cpu onlyCpu).thread = some (proc0, thread0) := by
    decide +kernel
  exact ⟨final, hfinal, hthread, kernel_stack_lifecycle (by decide) (by decide +kernel)⟩

/-- A thread is preempted in `kthread_create` before it has the new stack; its
sibling exits, and `init` waits. -/
def exitBeforeKalloc : List (Act 1) :=
  twoThreads onlyCpu ++ on onlyCpu [.call .kthreadCreate, .go, .go, .go, .go, .go, .tick, .go,
    .pick (proc1, thread1), .call .exit, .exit, .go, .pick (proc0, thread0)]

/-- A thread is between the store of `ZOMBIE` in `kthread_exit` and its switch,
on the other CPU, when it is joined. -/
def joinedOnCpu : List (Act 2) :=
  twoThreads leftCpu ++ on rightCpu [.go, .pick (proc1, thread1), .call .kthreadExit, .go] ++
    on leftCpu [.call (.kthreadJoin 3), .go, .go]

theorem null_stack_freed_and_stack_freed_in_use :
    (∃ s final, run step (boot 1 1) exitBeforeKalloc = some s ∧
      0 ∈ (frees s ⟨onlyCpu, .go⟩).map Prod.snd ∧ step s ⟨onlyCpu, .go⟩ = some final ∧
      final.cpu onlyCpu = .run (proc0, thread0) 1 (.panic .waitKfree)) ∧
    ∃ s final, run step (boot 2 1) joinedOnCpu = some s ∧
      ((proc1, thread1), 3) ∈ frees s ⟨leftCpu, .go⟩ ∧
      s.cpu rightCpu = .run (proc1, thread1) 3 .kthreadExiting ∧
      step s ⟨leftCpu, .go⟩ = some final ∧
      final.stackPages 3 = none ∧ final.cpu rightCpu = .run (proc1, thread1) 3 .kthreadExiting := by
  constructor
  · obtain ⟨s, hs, hzero, final, hfinal, hcpu⟩ :
        ∃ s, run step (boot 1 1) exitBeforeKalloc = some s ∧
          0 ∈ (frees s ⟨onlyCpu, .go⟩).map Prod.snd ∧
          ∃ final, step s ⟨onlyCpu, .go⟩ = some final ∧
            final.cpu onlyCpu = .run (proc0, thread0) 1 (.panic .waitKfree) := by
      decide +kernel
    exact ⟨s, final, hs, hzero, hfinal, hcpu⟩
  · obtain ⟨s, hs, hfree, hcpu, final, hfinal, hafter⟩ :
        ∃ s, run step (boot 2 1) joinedOnCpu = some s ∧
          ((proc1, thread1), 3) ∈ frees s ⟨leftCpu, .go⟩ ∧
          s.cpu rightCpu = .run (proc1, thread1) 3 .kthreadExiting ∧
          ∃ final, step s ⟨leftCpu, .go⟩ = some final ∧ final.stackPages 3 = none ∧
            final.cpu rightCpu = .run (proc1, thread1) 3 .kthreadExiting := by
      decide +kernel
    exact ⟨s, final, hs, hfree, hcpu, hfinal, hafter⟩

/-- Each CPU that runs a thread is on the kernel stack of the thread, which is a page that no
other CPU is on. -/
theorem cpus_on_own_stacks {page : Nat} {labels : List (Act n)} {final : State n} (hpage : page ≠ 0)
    (hmeets : Meets step Careful (boot n page) labels)
    (hrun : run step (boot n page) labels = some final) {c : Fin n} {x : Slot} {stack : Nat}
    {pc : Pc} (hcpu : final.cpu c = .run x stack pc) :
    (stack = (final.thread x).kstack ∧ final.stackPages stack = some x) ∧
      ∀ c' x' pc', final.cpu c' = .run x' stack pc' → c' = c := by
  have hkeep : ∀ (s : State n) a next, Inv s ∧ Stacks s → Careful s a → step s a = some next →
      Inv next ∧ Stacks next := fun s a next h hguard hstep =>
    ⟨inv_step h.1 hguard.1 hstep, stacks_step h.1 h.2 hguard hstep⟩
  obtain ⟨hinv, hstacks⟩ := run_invariant hkeep ⟨inv_boot n page, stacks_boot n hpage⟩ hmeets hrun
  have hown : ∀ c x pc, final.cpu c = .run x stack pc →
      stack = (final.thread x).kstack ∧ final.stackPages stack = some x := by
    intro c x pc hcpu
    have hon := hstacks.locals.running c x stack pc hcpu
    exact ⟨hon.stack, (hstacks.owned x stack).mpr ⟨hon.stack.symm, hon.stack ▸ hon.nonzero⟩⟩
  refine ⟨hown c x pc hcpu, fun c' x' pc' hcpu' => ?_⟩
  have hsame := (hown c' x' pc' hcpu').2
  rw [(hown c x pc hcpu).2] at hsame
  cases hsame
  exact hinv.unique c' c x (cpu_thread hcpu') (cpu_thread hcpu)

theorem cpus_on_own_stacks_joined_then_waited :
    ∃ final stack pc, run step (boot 1 1) joinedThenWaited = some final ∧
      final.cpu onlyCpu = .run (proc0, thread0) stack pc ∧
      final.stackPages stack = some (proc0, thread0) := by
  obtain ⟨final, hfinal, hthread⟩ : ∃ final, run step (boot 1 1) joinedThenWaited = some final ∧
      (final.cpu onlyCpu).thread = some (proc0, thread0) := by
    decide +kernel
  obtain ⟨stack, pc, hcpu⟩ := exists_run hthread
  exact ⟨final, stack, pc, hfinal, hcpu,
    (cpus_on_own_stacks (by decide) (by decide +kernel) hfinal hcpu).1.2⟩

end Xv6.Kernel
