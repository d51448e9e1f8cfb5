import Xv6.Kernel.Machine
import Xv6.Lib.Lock

/-! Who may write what. The invariant ties the two kinds of lock to the
positions of the CPUs, a running thread to its state, and a process or thread
that is being made to the one thread that makes it. It needs the condition
`Calm`: `exit` and the wake-up in `wait_before_exec` write states of threads
that can be running on another CPU. -/
namespace Xv6.Kernel
open Function Transition Lock

variable {n : Nat}

@[simp] theorem dead_unused : ProcState.dead .unused := Or.inl rfl

@[simp] theorem dead_zombie : ProcState.dead .zombie := Or.inr rfl

@[simp] theorem not_dead_embryo : ¬ ProcState.dead .embryo := by decide

@[simp] theorem not_dead_sleeping : ¬ ProcState.dead .sleeping := by decide

@[simp] theorem not_dead_runnable : ¬ ProcState.dead .runnable := by decide

@[simp] theorem not_dead_running : ¬ ProcState.dead .running := by decide

def Cpu.table : Cpu → Bool
  | .idle => false
  | .scheduling => true
  | .run _ _ pc => pc.table

/-- The process whose `lock` is held at this position of thread `x`. -/
def Pc.lock (x : Slot) : Pc → Option (Fin nproc)
  | .allocScan p _ _ => some p
  | .allocTid y _ _ => some y.1
  | .joinFound _ _ | .joinUsed _ _ | .joinLoop _ _ | .joinSleep _ _ | .joinReap _ _ _ => some x.1
  | .execScan _ _ | .execReap _ _ _ | .execWake _ _ | .execSleep => some x.1
  | .panic .joinUnused | .panic .joinKfree | .panic .execKfree => some x.1
  | _ => none

def Cpu.lock : Cpu → Option (Fin nproc)
  | .run x _ pc => pc.lock x
  | _ => none

def Cpu.thread : Cpu → Option Slot
  | .run x _ _ => some x
  | _ => none

/-- Not between the store of `ZOMBIE` and the switch in `sched`. -/
def Pc.settled : Pc → Bool
  | .exited | .kthreadExiting => false
  | _ => true

/-- Inside `exit`, where the last call of `kthread_exit` arrives as `ZOMBIE`. -/
def Pc.exits : Pc → Bool
  | .code (.work .exit) | .sleeping _ (.work .exit) | .panic .initExiting => true
  | _ => false

def Code.makes : Code → Option Slot
  | .kalloc y _ | .created y | .copyuvm y | .copied y => some y
  | _ => none

def Code.forks : Code → Option (Fin nproc)
  | .allocthread p .fork => some p
  | .kalloc y .fork | .copyuvm y | .copied y => some y.1
  | _ => none

def Code.readies : Code → Option Slot
  | .created y | .copyuvm y | .copied y => some y
  | _ => none

/-- `kthread_create` and `kthread_join` work on the caller's process. -/
def Code.near (x : Slot) : Code → Prop
  | .allocthread p .kthreadCreate => p = x.1
  | .kalloc y .kthreadCreate | .created y | .rejoin y _ => y.1 = x.1
  | _ => True

def Pc.makes : Pc → Option Slot
  | .code k | .yielding k | .sleeping _ k => k.makes
  | .allocTid y _ _ => some y
  | _ => none

def Pc.forks : Pc → Option (Fin nproc)
  | .code k | .yielding k | .sleeping _ k => k.forks
  | .allocScan p _ .fork => some p
  | .allocTid y _ .fork => some y.1
  | _ => none

def Pc.readies : Pc → Option Slot
  | .code k | .yielding k | .sleeping _ k => k.readies
  | _ => none

/-- So do the positions below it; and `wait` finds no live thread in a zombie
process. -/
def Pc.near (x : Slot) : Pc → Prop
  | .panic .waitAlive => False
  | .code k | .yielding k | .sleeping _ k => k.near x
  | .allocScan p _ .kthreadCreate => p = x.1
  | .allocTid y _ .kthreadCreate => y.1 = x.1
  | .joinFound y _ | .joinUsed y _ | .joinLoop y _ | .joinSleep y _ | .joinReap y _ _ => y.1 = x.1
  | .execReap y _ _ | .execWake y _ => y.1 = x.1
  | _ => True

/-- The thread that has been seen as `ZOMBIE` and will be freed. -/
def Pc.reaps : Pc → Option Slot
  | .joinReap y _ _ | .execReap y _ _ => some y
  | _ => none

def State.state (s : State n) (x : Slot) : ProcState :=
  (s.thread x).state

def State.pstate (s : State n) (p : Fin nproc) : ProcState :=
  (s.proc p).state

def State.ready (s : State n) (x : Slot) : Prop :=
  s.state x = .runnable ∨ s.state x = .sleeping

structure Refs (s : State n) (x : Slot) (pc : Pc) : Prop where
  near : pc.near x
  makes : ∀ y, pc.makes = some y → s.state y = .embryo ∧ (s.thread y).maker = some x
  readies : ∀ y, pc.readies = some y →
    (s.thread y).context.resume = .forkret ∨ (s.thread y).context.resume = .zombie
  forks : ∀ p, pc.forks = some p → s.pstate p = .embryo ∧ (s.proc p).maker = some x ∧
    ∀ i, ¬ ProcState.dead (s.state (p, i)) → pc.makes = some (p, i)
  reaps : ∀ y, pc.reaps = some y → s.state y = .zombie

structure Inv (s : State n) : Prop where
  table : Agrees s.ptlock (fun cpu => cpu.table = true) s.cpu
  locks : ∀ p, Agrees (s.lock p) (fun cpu => cpu.lock = some p) s.cpu
  unique : ∀ c c' x, (s.cpu c).thread = some x → (s.cpu c').thread = some x → c = c'
  running : ∀ c x stack pc, s.cpu c = .run x stack pc → pc.settled = true →
    s.state x = .running ∨ (ProcState.dead (s.state x) ∧ pc.exits = true)
  last : ∀ c x stack pc, s.cpu c = .run x stack pc → pc.exits = true →
    ProcState.dead (s.state x) → (∀ i, ProcState.dead (s.state (x.1, i))) ∧
      ∀ c' y, (s.cpu c').thread = some y → y.1 = x.1 → c' = c
  lives : ∀ x, ¬ ProcState.dead (s.state x) →
    s.pstate x.1 = .runnable ∨ (s.pstate x.1 = .embryo ∧ s.state x = .embryo)
  alive : ∀ c x stack pc, s.cpu c = .run x stack pc →
    s.pstate x.1 = .runnable ∨ (s.pstate x.1 = .zombie ∧ pc = .exited)
  refs : ∀ c x stack pc, s.cpu c = .run x stack pc → Refs s x pc
  saved : ∀ x, s.ready x → (∀ c, (s.cpu c).thread ≠ some x) →
    Refs s x (s.thread x).context.resume.pc

/-- The locks are held where the positions of the CPUs say so. -/
structure Locked (s : State n) : Prop where
  table : Agrees s.ptlock (fun cpu => cpu.table = true) s.cpu
  locks : ∀ p, Agrees (s.lock p) (fun cpu => cpu.lock = some p) s.cpu

/-- Processes with live threads are `RUNNABLE` or being made. -/
def Lives (s : State n) : Prop :=
  ∀ x, ¬ ProcState.dead (s.state x) →
    s.pstate x.1 = .runnable ∨ (s.pstate x.1 = .embryo ∧ s.state x = .embryo)

def Cmd.exits : Cmd → Bool
  | .exit => true
  | _ => false

def Cpu.exiting : Cpu → Option Slot
  | .run x _ (.code (.work .exit)) => some x
  | _ => none

def Cpu.leaving : Cpu → Option Slot
  | .run x _ .kthreadExiting => some x
  | _ => none

/-- About to free the entry of a thread in `kthread_join` or
`wait_before_exec`. -/
def Cpu.reaping : Cpu → Option Slot
  | .run _ _ pc => pc.reaps
  | _ => none

def State.alone (s : State n) (c : Fin n) (p : Fin nproc) : Prop :=
  ∀ c', c' ≠ c → (s.cpu c').thread.map Prod.fst ≠ some p

instance (s : State n) (c : Fin n) (p : Fin nproc) : Decidable (s.alone c p) :=
  inferInstanceAs (Decidable (∀ _, _))

/-- `exit` marks its threads while none of them runs on another CPU, and
`wait_before_exec` wakes a thread that is still asleep. -/
def Calm (s : State n) (a : Act n) : Prop :=
  match s.cpu a.cpu, a.cmd with
  | .run x _ (.code (.work .exit)), .exit => s.alone a.cpu x.1
  | .run _ _ (.execWake y _), .go => s.state y = .sleeping
  | _, _ => True

instance (s : State n) (a : Act n) : Decidable (Calm s a) := by
  unfold Calm
  split <;> infer_instance

theorem field_update {ι α β : Type*} [DecidableEq ι] {f : ι → α} {i : ι} {v : α} (g : α → β)
    (h : g v = g (f i)) (j : ι) : g (update f i v j) = g (f j) := by
  by_cases hj : j = i
  · rw [hj, update_self, h]
  · rw [update_of_ne hj]

theorem self_of_update {ι α : Type*} [DecidableEq ι] {f g : ι → α} {i : ι} {v : α}
    (h : g = update f i v) : g i = v := by
  rw [h, update_self]

theorem stay_of_update {ι α : Type*} [DecidableEq ι] {f g : ι → α} {i j : ι} {v : α}
    (h : g = update f i v) (hj : j ≠ i) : g j = f j := by
  rw [h, update_of_ne hj]

variable {s s' : State n} {c : Fin n} {x y : Slot} {stack : Nat} {pc pc' : Pc}

theorem cpu_thread (hcpu : s.cpu c = .run x stack pc) : (s.cpu c).thread = some x := by
  rw [hcpu]
  rfl

theorem exists_run (h : (s.cpu c).thread = some x) :
    ∃ stack pc, s.cpu c = .run x stack pc := by
  cases hcpu : s.cpu c with
  | idle | scheduling => simp [hcpu, Cpu.thread] at h
  | run x' stack pc =>
    rw [hcpu] at h
    cases h
    exact ⟨stack, pc, rfl⟩

theorem Refs.plain (hnear : pc.near x) (hmakes : pc.makes = none) (hreadies : pc.readies = none)
    (hforks : pc.forks = none) (hreaps : pc.reaps = none) : Refs s x pc where
  near := hnear
  makes := by simp [hmakes]
  readies := by simp [hreadies]
  forks := by simp [hforks]
  reaps := by simp [hreaps]

theorem Refs.congr (h : Refs s x pc) (hmakes : pc'.makes = pc.makes)
    (hreadies : pc'.readies = pc.readies) (hforks : pc'.forks = pc.forks)
    (hreaps : pc'.reaps = none) (hnear : pc'.near x) : Refs s x pc' where
  near := hnear
  makes := hmakes ▸ h.makes
  readies := hreadies ▸ h.readies
  forks := by
    rw [hforks, hmakes]
    exact h.forks
  reaps := by simp [hreaps]

theorem not_settled_table (h : pc.settled = false) : pc.table = true := by
  cases pc <;> simp_all [Pc.settled, Pc.table]

variable {c' : Fin n} {z : Slot}

namespace Inv

variable (h : Inv s)
include h

theorem settled_of_table {stack' : Nat} (hc : (s.cpu c).table = true)
    (hcpu : s.cpu c' = .run z stack' pc) (hne : c' ≠ c) : pc.settled = true := by
  by_contra hsettled
  have htable := not_settled_table (Bool.not_eq_true _ ▸ hsettled)
  exact hne (h.table.same (by simpa [hcpu, Cpu.table] using htable) hc)

theorem reaps_lock {stack' : Nat} (hcpu : s.cpu c' = .run z stack' pc)
    (hreaps : pc.reaps = some y) : y.1 = z.1 ∧ (s.cpu c').lock = some y.1 := by
  have hnear := (h.refs c' z stack' pc hcpu).near
  cases pc <;> simp only [Pc.reaps, Option.some.injEq, reduceCtorEq] at hreaps
  all_goals
    subst hreaps
    simp only [Pc.near] at hnear
    exact ⟨hnear, by simp [hcpu, Cpu.lock, Pc.lock, hnear]⟩

end Inv

/-- A store to the record of thread `y` that the threads other than `m`, and
the CPUs other than `c`, do not notice. -/
structure Written (s : State n) (c : Fin n) (m : Option Slot) (y : Slot) (t : Thread) : Prop where
  made : ∀ z, m ≠ some z → s.state y = .embryo → (s.thread y).maker = some z →
    t.state = .embryo ∧ t.maker = some z ∧
      (t.context = (s.thread y).context ∨ t.context.resume = .zombie)
  forked : ∀ z, m ≠ some z → s.pstate y.1 = .embryo → (s.proc y.1).maker = some z →
    ProcState.dead (s.state y) → ProcState.dead t.state
  reaped : ∀ c' z stack pc, c' ≠ c → s.cpu c' = .run z stack pc → pc.reaps = some y →
    s.state y = .zombie → t.state = .zombie
  ran : ∀ c' stack pc, c' ≠ c → s.cpu c' = .run y stack pc → pc.settled = true →
    t.state = s.state y
  lasts : ∀ c' z stack pc, c' ≠ c → s.cpu c' = .run z stack pc → pc.exits = true →
    ProcState.dead (s.state z) → z.1 = y.1 → ProcState.dead t.state

/-- The same for a store to the record of process `p`. -/
structure PWritten (s : State n) (c : Fin n) (m : Option Slot) (p : Fin nproc) (q : Proc) :
    Prop where
  forked : ∀ z, m ≠ some z → s.pstate p = .embryo → (s.proc p).maker = some z →
    q.state = .embryo ∧ q.maker = some z
  ran : ∀ c' z stack pc, c' ≠ c → s.cpu c' = .run z stack pc → z.1 = p → q.state = s.pstate p

/-- What the CPU that makes a step owes for the position that it reaches. -/
structure Arrives (s s' : State n) (c : Fin n) (x : Slot) (pc : Pc) : Prop where
  from_ : (s.cpu c).thread = some x ∨ ¬ ProcState.dead (s.state x)
  unique : ∀ c', c' ≠ c → (s.cpu c').thread ≠ some x
  running : pc.settled = true →
    s'.state x = .running ∨ (ProcState.dead (s'.state x) ∧ pc.exits = true)
  last : pc.exits = true → ProcState.dead (s'.state x) →
    (∀ i, ProcState.dead (s'.state (x.1, i))) ∧
      ∀ c' y, c' ≠ c → (s.cpu c').thread = some y → y.1 ≠ x.1
  alive : s'.pstate x.1 = .runnable ∨ (s'.pstate x.1 = .zombie ∧ pc = .exited)
  refs : Refs s' x pc

theorem exits_settled (h : pc.exits = true) : pc.settled = true := by
  cases pc <;> simp_all [Pc.exits, Pc.settled]

theorem makes_of_readies (h : pc.readies = some y) : pc.makes = some y := by
  cases pc <;> simp only [Pc.readies, reduceCtorEq] at h <;> rename_i k <;>
    cases k <;> simp_all [Code.readies, Pc.makes, Code.makes]

section

variable {m : Option Slot} {t : Thread} {p : Fin nproc} {q : Proc} {v : Cpu}

theorem Refs.written (h : Refs s z pc) (hw : Written s c m y t)
    (hp : PWritten s c m p q) (hz : m ≠ some z)
    (hthread : s'.thread = update s.thread y t)
    (hproc : s'.proc = update s.proc p q)
    (hreaps : pc.reaps = some y → s.state y = .zombie → t.state = .zombie) : Refs s' z pc := by
  have hother : ∀ {y'}, y' ≠ y → s'.thread y' = s.thread y' := stay_of_update hthread
  have hself := self_of_update hthread
  refine ⟨h.near, fun y' hy' => ?_, fun y' hy' => ?_, fun p' hp' => ?_, fun y' hy' => ?_⟩
  · obtain ⟨hstate, hmaker⟩ := h.makes y' hy'
    by_cases heq : y' = y
    · subst heq
      obtain ⟨hstate', hmaker', -⟩ := hw.made z hz hstate hmaker
      exact ⟨by rw [State.state, hself, hstate'], by rw [hself, hmaker']⟩
    · exact ⟨by rw [State.state, hother heq]; exact hstate, by rw [hother heq, hmaker]⟩
  · obtain ⟨hstate, hmaker⟩ := h.makes y' (makes_of_readies hy')
    by_cases heq : y' = y
    · subst heq
      rw [hself]
      rcases (hw.made z hz hstate hmaker).2.2 with hcontext | hzombie
      · rw [hcontext]
        exact h.readies y' hy'
      · exact Or.inr hzombie
    · rw [hother heq]
      exact h.readies y' hy'
  · obtain ⟨hstate, hmaker, hthreads⟩ := h.forks p' hp'
    have hkept : s'.pstate p' = .embryo ∧ (s'.proc p').maker = some z := by
      rw [State.pstate, hproc]
      by_cases heq : p' = p
      · subst heq
        rw [update_self]
        exact hp.forked z hz hstate hmaker
      · rw [update_of_ne heq]
        exact ⟨hstate, hmaker⟩
    refine ⟨hkept.1, hkept.2, fun i hlive => hthreads i fun hdead => hlive ?_⟩
    rw [State.state]
    by_cases heq : (p', i) = y
    · subst heq
      rw [hself]
      exact hw.forked z hz hstate hmaker hdead
    · rw [hother heq]
      exact hdead
  · have hstate := h.reaps y' hy'
    rw [State.state]
    by_cases heq : y' = y
    · subst heq
      rw [hself]
      exact hreaps hy' hstate
    · rw [hother heq]
      exact hstate

theorem resume_reaps (resume : Resume) : resume.pc.reaps = none := by
  cases resume <;> rfl

/-- The thread `z` at `pc`, on another CPU, does not notice the step. -/
structure Unmoved (s s' : State n) (z : Slot) (pc : Pc) : Prop where
  state : pc.settled = true → s'.state z = s.state z
  last : pc.exits = true → ProcState.dead (s.state z) → ∀ i, ProcState.dead (s.state (z.1, i)) →
    ProcState.dead (s'.state (z.1, i))
  pstate : s'.pstate z.1 = s.pstate z.1
  refs : Refs s z pc → Refs s' z pc

theorem Inv.advance (h : Inv s) (hcpu : s'.cpu = update s.cpu c v) (hlocked : Locked s')
    (hothers : ∀ c' z stack pc, c' ≠ c → s.cpu c' = .run z stack pc → Unmoved s s' z pc)
    (hlives : Lives s')
    (hsaved : ∀ x, s'.ready x → (∀ c', (s'.cpu c').thread ≠ some x) →
      Refs s' x (s'.thread x).context.resume.pc)
    (hv : ∀ x stack pc, v = .run x stack pc → Arrives s s' c x pc) : Inv s' := by
  have hself := self_of_update hcpu
  have hother : ∀ {c'}, c' ≠ c → s'.cpu c' = s.cpu c' := stay_of_update hcpu
  have harrived : ∀ {z}, v.thread = some z → ∃ pc, Arrives s s' c z pc := by
    intro z hz
    cases v with
    | idle | scheduling => cases hz
    | run x stack pc =>
      cases hz
      exact ⟨pc, hv z stack pc rfl⟩
  have hnew : ∀ {c' z}, c' ≠ c → (s.cpu c').thread = some z → v.thread ≠ some z := by
    intro c' z hc' hrun hz
    obtain ⟨pc, harrives⟩ := harrived hz
    exact harrives.unique c' hc' hrun
  refine ⟨hlocked.table, hlocked.locks, ?_, ?_, ?_, hlives, ?_, ?_, hsaved⟩
  · intro c₁ c₂ x h₁ h₂
    by_contra hne
    by_cases hc₁ : c₁ = c
    · subst hc₁
      rw [hself] at h₁
      rw [hother (Ne.symm hne)] at h₂
      exact hnew (Ne.symm hne) h₂ h₁
    · rw [hother hc₁] at h₁
      by_cases hc₂ : c₂ = c
      · rw [hc₂, hself] at h₂
        exact hnew hc₁ h₁ h₂
      · rw [hother hc₂] at h₂
        exact hne (h.unique c₁ c₂ x h₁ h₂)
  · intro c' z stack pc hrun hsettled
    by_cases hc' : c' = c
    · subst hc'
      exact (hv z stack pc (hself.symm.trans hrun)).running hsettled
    · rw [hother hc'] at hrun
      rw [(hothers c' z stack pc hc' hrun).state hsettled]
      exact h.running c' z stack pc hrun hsettled
  · intro c' z stack pc hrun hexits hzombie
    by_cases hc' : c' = c
    · subst hc'
      obtain ⟨hdead, halone⟩ := (hv z stack pc (hself.symm.trans hrun)).last hexits hzombie
      refine ⟨hdead, fun c'' z' hrun' hz' => ?_⟩
      by_contra hne
      exact halone c'' z' hne (hother hne ▸ hrun') hz'
    · rw [hother hc'] at hrun
      have hunmoved := hothers c' z stack pc hc' hrun
      rw [hunmoved.state (exits_settled hexits)] at hzombie
      obtain ⟨hdead, halone⟩ := h.last c' z stack pc hrun hexits hzombie
      refine ⟨fun i => hunmoved.last hexits hzombie i (hdead i), fun c'' z' hrun' hz' => ?_⟩
      by_cases hc'' : c'' = c
      · rw [hc'', hself] at hrun'
        obtain ⟨pc', harrives⟩ := harrived hrun'
        rcases harrives.from_ with hold | hlive
        · rw [hc'']
          exact halone c z' hold hz'
        · refine absurd ?_ hlive
          have := hdead z'.2
          rwa [← hz'] at this
      · exact halone c'' z' (hother hc'' ▸ hrun') hz'
  · intro c' z stack pc hrun
    by_cases hc' : c' = c
    · subst hc'
      exact (hv z stack pc (hself.symm.trans hrun)).alive
    · rw [hother hc'] at hrun
      rw [(hothers c' z stack pc hc' hrun).pstate]
      exact h.alive c' z stack pc hrun
  · intro c' z stack pc hrun
    by_cases hc' : c' = c
    · subst hc'
      exact (hv z stack pc (hself.symm.trans hrun)).refs
    · rw [hother hc'] at hrun
      exact (hothers c' z stack pc hc' hrun).refs (h.refs c' z stack pc hrun)

/-- A thread that is on no CPU after the step, or has not left its CPU with it,
was on none before. -/
theorem off_of_off (hcpu : s'.cpu = update s.cpu c v)
    (hleave : (s.cpu c).thread = some z → v.thread = some z)
    (hnone : ∀ c', (s'.cpu c').thread ≠ some z) (c' : Fin n) : (s.cpu c').thread ≠ some z := by
  intro hrun
  have hc := hnone c'
  rw [hcpu] at hc
  by_cases hc' : c' = c
  · subst hc'
    rw [update_self] at hc
    exact hc (hleave hrun)
  · rw [update_of_ne hc'] at hc
    exact hc hrun

theorem Inv.write (h : Inv s) (hthread : s'.thread = update s.thread y t)
    (hproc : s'.proc = update s.proc p q) (hcpu : s'.cpu = update s.cpu c v)
    (hw : Written s c m y t) (hp : PWritten s c m p q)
    (hm : ∀ z, m = some z → (s.cpu c).thread = some z) (hlocked : Locked s')
    (hleave : ∀ z, (s.cpu c).thread = some z → z ≠ y → v.thread = some z)
    (hlives : Lives s')
    (hready : s'.ready y → (∀ c', (s'.cpu c').thread ≠ some y) →
      Refs s' y t.context.resume.pc)
    (hv : ∀ x stack pc, v = .run x stack pc → Arrives s s' c x pc) : Inv s' := by
  have hself : s'.state y = t.state := by rw [State.state, hthread, update_self]
  have hstay : ∀ {z}, z ≠ y → s'.thread z = s.thread z := stay_of_update hthread
  refine h.advance hcpu hlocked (fun c' z stack pc hc' hrun => ?_) hlives ?_ hv
  · refine ⟨fun hsettled => ?_, fun hexits hzombie i hdead => ?_, ?_, fun hrefs => ?_⟩
    · by_cases hz : z = y
      · subst hz
        rw [hself]
        exact hw.ran c' stack pc hc' hrun hsettled
      · rw [State.state, hstay hz, State.state]
    · by_cases hi : (z.1, i) = y
      · rw [hi, hself]
        exact hw.lasts c' z stack pc hc' hrun hexits hzombie (by rw [← hi])
      · rw [State.state, hstay hi]
        exact hdead
    · rw [State.pstate, hproc]
      by_cases hz : z.1 = p
      · rw [hz, update_self]
        exact hp.ran c' z stack pc hc' hrun hz
      · rw [update_of_ne hz, State.pstate]
    · have hmover : m ≠ some z := fun hmz => hc' (h.unique c' c z (cpu_thread hrun) (hm z hmz))
      exact hrefs.written hw hp hmover hthread hproc (hw.reaped c' z stack pc hc' hrun)
  · intro z hz hnone
    by_cases hzy : z = y
    · subst hzy
      rw [hthread, update_self]
      exact hready hz hnone
    · have hnone' := off_of_off hcpu (fun hrun => hleave z hrun hzy) hnone
      rw [State.ready, State.state, hstay hzy] at hz
      rw [hstay hzy]
      exact (h.saved z hz hnone').written hw hp (fun hmz => hnone' c (hm z hmz)) hthread hproc
        (fun hreaps => by simp [resume_reaps] at hreaps)

end

namespace Inv

variable (h : Inv s) {m : Option Slot} {t : Thread} {p : Fin nproc} {q : Proc} {v : Cpu}
include h

theorem last_dead (hcpu : s.cpu c' = .run z stack pc)
    (hexits : pc.exits = true) (hzombie : ProcState.dead (s.state z)) (hy : z.1 = y.1) :
    ProcState.dead (s.state y) := by
  have hdead := (h.last c' z stack pc hcpu hexits hzombie).1 y.2
  rwa [hy] at hdead

theorem last_alone (hcpu : s.cpu c' = .run z stack pc)
    (hexits : pc.exits = true) (hzombie : ProcState.dead (s.state z)) (hne : c' ≠ c)
    (hx : (s.cpu c).thread = some x) : z.1 ≠ x.1 :=
  fun hz => hne ((h.last c' z stack pc hcpu hexits hzombie).2 c x hx hz.symm).symm

/-- The state stays, and the context or the switch that follows a store of
`ZOMBIE`. -/
theorem written_same (hstate : t.state = s.state y) (hmaker : t.maker = (s.thread y).maker)
    (hcontext : t.context = (s.thread y).context ∨ t.context.resume = .zombie) :
    Written s c m y t where
  made := fun _ _ hembryo hz => ⟨hstate.trans hembryo, hmaker.trans hz, hcontext⟩
  forked := fun _ _ _ _ hdead => hstate ▸ hdead
  reaped := fun _ _ _ _ _ _ _ hzombie => hstate.trans hzombie
  ran := fun _ _ _ _ _ _ => hstate
  lasts := fun _ _ _ _ _ hcpu hexits hzombie hz =>
    hstate ▸ h.last_dead hcpu hexits hzombie hz

theorem written_own (hcpu : s.cpu c = .run y stack pc) (hsettled : pc.settled = true) :
    Written s c m y t := by
  have hstate := h.running c y stack pc hcpu hsettled
  have hpc : pc ≠ .exited := by
    rintro rfl
    cases hsettled
  have halive : s.pstate y.1 = .runnable :=
    (h.alive c y stack pc hcpu).resolve_right fun hexited => hpc hexited.2
  refine ⟨fun z _ hembryo => ?_, fun z _ hembryo => ?_,
    fun c' z stack' pc' hne hrun hreaps hz => ?_, fun c' stack' pc' hne hrun _ => ?_,
    fun c' z stack' pc' hne hrun hexits hz heq => ?_⟩
  · rw [hembryo] at hstate
    simp at hstate
  · rw [halive] at hembryo
    cases hembryo
  · -- only the last thread of a process is `ZOMBIE` here, and it is alone
    rcases hstate with hrunning | ⟨-, hexits⟩
    · rw [hz] at hrunning
      cases hrunning
    · have hnear := (h.reaps_lock hrun hreaps).1
      exact absurd hnear (h.last_alone hcpu hexits (Or.inr hz) (Ne.symm hne) (cpu_thread hrun))
  · exact absurd (h.unique c' c y (cpu_thread hrun) (cpu_thread hcpu)) hne
  · exact absurd heq (h.last_alone hrun hexits hz hne (cpu_thread hcpu))

theorem written_live (hlive : ¬ ProcState.dead (s.state y)) (hoff : s.state y ≠ .running)
    (hmade : s.state y = .embryo → (s.thread y).maker = m) : Written s c m y t where
  made := fun _ hz hembryo hmaker => absurd ((hmade hembryo).symm.trans hmaker) hz
  forked := fun _ _ _ _ hdead => absurd hdead hlive
  reaped := fun _ _ _ _ _ _ _ hzombie => absurd (Or.inr hzombie) hlive
  ran := fun c' stack' pc' _ hrun hsettled =>
    (h.running c' y stack' pc' hrun hsettled).elim (fun hrunning => absurd hrunning hoff)
      fun hdead => absurd hdead.1 hlive
  lasts := fun _ _ _ _ _ hrun hexits hzombie hz =>
    absurd (h.last_dead hrun hexits hzombie hz) hlive

theorem written_made (hstate : s.state y = .embryo) (hmaker : (s.thread y).maker = m) :
    Written s c m y t :=
  h.written_live (by simp [hstate]) (by simp [hstate]) fun _ => hmaker

/-- A free entry of `pthreads`, taken by a thread of the process or by the
`fork` that makes the process. -/
theorem written_unused (hstate : s.state y = .unused)
    (hproc : ((s.cpu c).thread = some x ∧ x.1 = y.1 ∧ s.pstate y.1 = .runnable) ∨
      (s.pstate y.1 = .embryo ∧ (s.proc y.1).maker = m)) : Written s c m y t where
  made := fun _ _ hembryo => by simp [hstate] at hembryo
  forked := fun z hz hembryo hmaker => by
    rcases hproc with ⟨-, -, hrunnable⟩ | ⟨-, hm⟩
    · simp [hrunnable] at hembryo
    · exact absurd (hm.symm.trans hmaker) hz
  reaped := fun _ _ _ _ _ _ _ hzombie => by simp [hstate] at hzombie
  ran := fun c' stack' pc' hne hrun hsettled => by
    rcases h.running c' y stack' pc' hrun hsettled with hrunning | ⟨hdead, hexits⟩
    · simp [hstate] at hrunning
    rcases hproc with ⟨hx, hxy, -⟩ | ⟨hembryo, -⟩
    · exact absurd hxy.symm (h.last_alone hrun hexits hdead hne hx)
    · have halive := h.alive c' y stack' pc' hrun
      simp [hembryo] at halive
  lasts := fun c' z stack' pc' hne hrun hexits hzombie hz => by
    rcases hproc with ⟨hx, hxy, -⟩ | ⟨hembryo, -⟩
    · exact absurd (hz.trans hxy.symm) (h.last_alone hrun hexits hzombie hne hx)
    · have halive := h.alive c' z stack' pc' hrun
      simp [hz, hembryo] at halive

theorem written_reaped (hcpu : s.cpu c = .run x stack pc) (hreaps : pc.reaps = some y)
    (ht : t.state = .unused) : Written s c m y t where
  made := fun z _ hembryo => by
    have hzombie := (h.refs c x stack pc hcpu).reaps y hreaps
    simp [hembryo] at hzombie
  forked := fun _ _ _ _ _ => Or.inl ht
  reaped := fun c' z stack' pc' hne hrun hreaps' _ =>
    absurd ((h.locks y.1).same (h.reaps_lock hrun hreaps').2 (h.reaps_lock hcpu hreaps).2) hne
  ran := fun c' stack' pc' hne hrun hsettled => by
    have hzombie := (h.refs c x stack pc hcpu).reaps y hreaps
    rcases h.running c' y stack' pc' hrun hsettled with hrunning | ⟨-, hexits⟩
    · simp [hzombie] at hrunning
    · exact absurd (h.reaps_lock hcpu hreaps).1
        (h.last_alone hrun hexits (Or.inr hzombie) hne (cpu_thread hcpu))
  lasts := fun _ _ _ _ _ _ _ _ _ => Or.inl ht

theorem written_runnable (hstate : s.state y = .runnable) : Written s c m y t :=
  h.written_live (by simp [hstate]) (by simp [hstate]) (by simp [hstate])

omit h in
theorem pwritten_same (hstate : q.state = s.pstate p) (hmaker : q.maker = (s.proc p).maker) :
    PWritten s c m p q where
  forked := fun _ _ hembryo hz => ⟨hstate.trans hembryo, hmaker.trans hz⟩
  ran := fun _ _ _ _ _ _ _ => hstate

theorem pwritten_made (hstate : s.pstate p = .embryo) (hmaker : (s.proc p).maker = m) :
    PWritten s c m p q where
  forked := fun z hz _ hmade => absurd (hmaker.symm.trans hmade) hz
  ran := fun c' z stack' pc' _ hrun hz => by
    have halive := h.alive c' z stack' pc' hrun
    simp [hz, hstate] at halive

theorem locked : Locked s :=
  ⟨h.table, h.locks⟩

end Inv

namespace Locked

variable (h : Locked s) {p : Fin nproc} {v : Cpu}
include h

theorem table_keep (hv : v.table = (s.cpu c).table) :
    Agrees s.ptlock (fun cpu => cpu.table = true) (update s.cpu c v) :=
  h.table.keep rfl (by rw [hv])

theorem table_acquire (hfree : s.ptlock = none) (hv : v.table = true) :
    Agrees (some c) (fun cpu => cpu.table = true) (update s.cpu c v) :=
  h.table.acquire hfree hv

theorem table_release (hc : (s.cpu c).table = true) (hv : v.table = false) :
    Agrees none (fun cpu => cpu.table = true) (update s.cpu c v) :=
  h.table.release rfl hc (by simp [hv])

theorem locks_keep (hv : v.lock = (s.cpu c).lock) (p : Fin nproc) :
    Agrees (s.lock p) (fun cpu => cpu.lock = some p) (update s.cpu c v) :=
  (h.locks p).keep rfl (by rw [hv])

theorem locks_acquire (hfree : s.lock p = none) (hc : (s.cpu c).lock = none)
    (hv : v.lock = some p) (p' : Fin nproc) :
    Agrees (update s.lock p (some c) p') (fun cpu => cpu.lock = some p')
      (update s.cpu c v) := by
  by_cases hp : p' = p
  · subst hp
    rw [update_self]
    exact (h.locks p').acquire hfree hv
  · rw [update_of_ne hp]
    exact (h.locks p').keep rfl (by simp [hc, hv, Ne.symm hp])

theorem locks_release (hc : (s.cpu c).lock = some p) (hv : v.lock = none) (p' : Fin nproc) :
    Agrees (update s.lock p none p') (fun cpu => cpu.lock = some p')
      (update s.cpu c v) := by
  by_cases hp : p' = p
  · subst hp
    rw [update_self]
    exact (h.locks p').release rfl hc (by simp [hv])
  · rw [update_of_ne hp]
    exact (h.locks p').keep rfl (by simp [hc, hv, Ne.symm hp])

theorem keep (hcpu : s.cpu c = .run x stack pc) (hcpu' : s'.cpu = update s.cpu c (.run x stack pc'))
    (hptlock : s'.ptlock = s.ptlock) (hlock : s'.lock = s.lock) (htable : pc'.table = pc.table)
    (hheld : pc'.lock x = pc.lock x) : Locked s' where
  table := by
    rw [hptlock, hcpu']
    exact h.table_keep (by rw [hcpu]; exact htable)
  locks := by
    rw [hlock, hcpu']
    exact h.locks_keep (by rw [hcpu]; exact hheld)

end Locked

end Xv6.Kernel
