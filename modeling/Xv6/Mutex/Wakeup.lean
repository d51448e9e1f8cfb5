import Xv6.Kernel.SleepWakeup
import Xv6.Lib.Lock
import Xv6.Mutex.Table

/-! Mutex calls on several CPUs, at the grain of single acquires, releases and
stores. `kthread_mutex_unlock` calls `wakeup` after it has released
`mxtable.lock`, and `sleep` takes `ptable.lock` before it releases
`mxtable.lock`. The calls are a use of `sleep` and `wakeup` as the general machine
has it, with a channel for each mutex, and what is known of that machine says who
owes a wakeup to each thread that sleeps on a mutex. -/
namespace Xv6.Wakeup
open Function (update update_self update_of_ne update_eq_self)
open Transition Mutex

/-- A `struct thread`, as its place in `ptable`. -/
abbrev Thread := Fin (nproc * nthread)

inductive Call where
  | alloc
  | dealloc (id : Int)
  | lock (id : Int)
  | unlock (id : Int)
deriving DecidableEq

/-- Positions without a spinlock, where a timer interrupt can come in. -/
inductive Code where
  | user
  /-- Before `acquire(&mxtable.lock)` at the start of a call. -/
  | enter (call : Call)
  /-- In `sleep`, before `acquire(lk)`. -/
  | reenter (i : Slot)
  /-- In `wakeup`, before `acquire(&ptable.lock)`. -/
  | wakeup (i : Slot)
deriving DecidableEq

inductive Resume where
  | yield (k : Code)
  | sleep (i : Slot)
deriving DecidableEq

inductive Pc where
  | code (k : Code)
  | scan (call : Call)
  | leave
  | xchg (i : Slot)
  | own (i : Slot)
  /-- In `sleep`, before `acquire(&ptable.lock)`. -/
  | sleep (i : Slot)
  /-- In `sleep`, before `release(lk)`. -/
  | sleepRelease (i : Slot)
  /-- In `sleep`, before the stores to `chan` and `state`. -/
  | sleepMark (i : Slot)
  | sleepWoken (i : Slot)
  | unlock (i : Slot)
  | disown (i : Slot)
  | unlockRelease (i : Slot)
  | wakeup1 (i : Slot) (rest : List Thread)
  | yield (k : Code)
  | yieldMark (k : Code)
  | sched (resume : Resume)
  /-- Not on a CPU. -/
  | switched (resume : Resume)
  | resumed (resume : Resume)
deriving DecidableEq

/-- The positions inside a section of `mxtable.lock`. -/
def Pc.mxtable : Pc → Prop
  | .scan _ | .leave | .xchg _ | .own _ | .sleep _ | .sleepRelease _ => True
  | .unlock _ | .disown _ | .unlockRelease _ => True
  | _ => False

abbrev Cpu := Sleep.Cpu (nproc * nthread)

/-- Who can hold `ptable.lock`. -/
abbrev Agent (n : Nat) := Sleep.Agent n (nproc * nthread)

structure State (n : Nat) where
  mutex : Slot → KthreadMutex
  nextmxid : Int
  mxlock : Option Thread
  ptlock : Option (Agent n)
  state : Thread → ProcState
  chan : Thread → Option Slot
  pc : Thread → Pc
  cpu : Fin n → Cpu
  panicked : Bool

/-- The zeroed mutex table, with some threads ready to run. -/
def boot (n : Nat) (ready : Thread → Bool) : State n where
  mutex := fun _ => ⟨.free, 0, none⟩
  nextmxid := 1
  mxlock := none
  ptlock := none
  state := fun t => if ready t then .runnable else .unused
  chan := fun _ => none
  pc := fun _ => .switched (.yield .user)
  cpu := fun _ => .idle
  panicked := false

variable {n : Nat}

def State.goto (s : State n) (t : Thread) (pc : Pc) : State n :=
  { s with pc := update s.pc t pc }

def State.setMutex (s : State n) (i : Slot) (mx : KthreadMutex) : State n :=
  { s with mutex := update s.mutex i mx }

def State.setState (s : State n) (t : Thread) (state : ProcState) : State n :=
  { s with state := update s.state t state }

def State.findId (s : State n) (id : Int) : Option Slot :=
  (List.finRange maxMutexes).find? fun i => (s.mutex i).mxid = id

def State.findFree (s : State n) : Option Slot :=
  (List.finRange maxMutexes).find? fun i => (s.mutex i).state = .free

/-- From the scan of the table to the first test of what it finds. -/
def scanTable (s : State n) (t : Thread) : Call → State n
  | .alloc =>
    match s.findFree with
    | none => s.goto t .leave
    | some i =>
      { s.setMutex i ⟨.unlocked, s.nextmxid, none⟩ with
        nextmxid := s.nextmxid + 1 }.goto t .leave
  | .dealloc id =>
    match s.findId id with
    | none => s.goto t .leave
    | some i =>
      if (s.mutex i).state = .locked then s.goto t .leave
      else (s.setMutex i ⟨.free, 0, none⟩).goto t .leave
  | .lock id =>
    match s.findId id with
    | none => s.goto t .leave
    | some i =>
      -- panic("kthread_mutex_lock: trying to catch FREE mutex")
      if (s.mutex i).state = .free then { s with panicked := true } else s.goto t (.xchg i)
  | .unlock id =>
    match s.findId id with
    | none => s.goto t .leave
    | some i =>
      if (s.mutex i).state = .unlocked then s.goto t .leave else s.goto t (.unlock i)

/-- `xchg(&mx->state, LOCKED)` and the test of the loop. -/
def xchg (s : State n) (t : Thread) (i : Slot) : State n :=
  (s.setMutex i { s.mutex i with state := .locked }).goto t
    (if (s.mutex i).state = .locked then .sleep i else .own i)

def wakeTurn (s : State n) (u : Thread) (i : Slot) : State n :=
  if s.state u = .sleeping ∧ s.chan u = some i then s.setState u .runnable else s

/-- `swtch` from a thread to the scheduler of its CPU, which goes on with
`ptable.lock` held. -/
def swtch (s : State n) (c : Fin n) (t : Thread) (resume : Resume) : State n :=
  { s with
    ptlock := some (.cpu c)
    cpu := update s.cpu c .scheduler }.goto t (.switched resume)

def threadStep (s : State n) (c : Fin n) (t : Thread) : Pc → Option (State n)
  | .code .user => none
  | .code (.enter call) =>
    if s.mxlock = none then some ({ s with mxlock := some t }.goto t (.scan call)) else none
  | .code (.reenter i) =>
    if s.mxlock = none then some ({ s with mxlock := some t }.goto t (.xchg i)) else none
  | .code (.wakeup i) =>
    if s.ptlock = none then
      some ({ s with ptlock := some (.thread t) }.goto t (.wakeup1 i (List.finRange _)))
    else none
  | .scan call => some (scanTable s t call)
  | .leave => some ({ s with mxlock := none }.goto t (.code .user))
  | .xchg i => some (xchg s t i)
  | .own i => some ((s.setMutex i { s.mutex i with owner := some t }).goto t .leave)
  | .sleep i =>
    if s.ptlock = none then
      some ({ s with ptlock := some (.thread t) }.goto t (.sleepRelease i))
    else none
  | .sleepRelease i => some ({ s with mxlock := none }.goto t (.sleepMark i))
  | .sleepMark i =>
    some ({ s.setState t .sleeping with
      chan := update s.chan t (some i) }.goto t (.sched (.sleep i)))
  | .sleepWoken i => some ({ s with ptlock := none }.goto t (.code (.reenter i)))
  | .unlock i =>
    some ((s.setMutex i { s.mutex i with state := .unlocked }).goto t (.disown i))
  | .disown i => some ((s.setMutex i { s.mutex i with owner := none }).goto t (.unlockRelease i))
  | .unlockRelease i => some ({ s with mxlock := none }.goto t (.code (.wakeup i)))
  | .wakeup1 i (u :: rest) => some ((wakeTurn s u i).goto t (.wakeup1 i rest))
  | .wakeup1 _ [] => some ({ s with ptlock := none }.goto t (.code .user))
  | .yield k =>
    if s.ptlock = none then some ({ s with ptlock := some (.thread t) }.goto t (.yieldMark k))
    else none
  | .yieldMark k => some ((s.setState t .runnable).goto t (.sched (.yield k)))
  | .sched resume => some (swtch s c t resume)
  | .switched _ => none
  | .resumed (.yield k) => some ({ s with ptlock := none }.goto t (.code k))
  | .resumed (.sleep i) =>
    some ({ s with chan := update s.chan t none }.goto t (.sleepWoken i))

inductive Cmd where
  | go
  | call (call : Call)
  | tick
  | pick (t : Thread)

structure Act (n : Nat) where
  cpu : Fin n
  cmd : Cmd

/-- `t->state = RUNNING` and `swtch` to the thread, which then holds
`ptable.lock`. -/
def pick (s : State n) (c : Fin n) (t : Thread) (resume : Resume) : State n :=
  { s.setState t .running with
    ptlock := some (.thread t)
    cpu := update s.cpu c (.run t) }.goto t (.resumed resume)

def step (s : State n) (a : Act n) : Option (State n) :=
  if s.panicked then none
  else match s.cpu a.cpu with
    | .idle =>
      match a.cmd with
      | .go =>
        if s.ptlock = none then
          some { s with
            ptlock := some (.cpu a.cpu), cpu := update s.cpu a.cpu .scheduler }
        else none
      | _ => none
    | .scheduler =>
      match a.cmd with
      | .go => some { s with ptlock := none, cpu := update s.cpu a.cpu .idle }
      | .pick t =>
        match s.pc t with
        | .switched resume =>
          if s.state t = .runnable then some (pick s a.cpu t resume) else none
        | _ => none
      | _ => none
    | .run t =>
      match a.cmd with
      | .go => threadStep s a.cpu t (s.pc t)
      | .call call => if s.pc t = .code .user then some (s.goto t (.code (.enter call))) else none
      | .tick =>
        match s.pc t with
        | .code k => some (s.goto t (.yield k))
        | _ => none
      | .pick _ => none

def State.sleepsOn (s : State n) (t : Thread) (i : Slot) : Prop :=
  s.state t = .sleeping ∧ s.chan t = some i

/-- In an unlock of the mutex, after the store of `UNLOCKED` and before its
`wakeup1` has reached the thread. -/
def Pc.owes (i : Slot) (t : Thread) : Pc → Prop
  | .disown j | .unlockRelease j => j = i
  | .code k | .yield k | .yieldMark k => k = .wakeup i
  | .wakeup1 j rest => j = i ∧ t ∈ rest
  | .sched resume | .switched resume | .resumed resume => resume = .yield (.wakeup i)
  | _ => False

/-- In an unlock of the mutex, between the store of `UNLOCKED` and the end of its
`wakeup1`. -/
def Pc.pays (i : Slot) : Pc → Prop
  | .wakeup1 j _ => j = i
  | .disown j | .unlockRelease j => j = i
  | .code k | .yield k | .yieldMark k => k = .wakeup i
  | .sched resume | .switched resume | .resumed resume => resume = .yield (.wakeup i)
  | _ => False

def Code.view : Code → Sleep.Code Slot
  | .user | .enter _ => .run
  | .reenter i => .reacquire i
  | .wakeup i => .wakeup i

def Resume.view : Resume → Sleep.Resume Slot
  | .yield k => .yield k.view
  | .sleep i => .sleep i

/-- A position as one in a general use of `sleep` and `wakeup`: the test of the waiting
loop is the `xchg`, and the rest of a call is other code. -/
def Pc.view : Pc → Sleep.Pc (nproc * nthread) Slot
  | .code k => .code k.view
  | .scan _ | .leave | .own _ | .unlock _ | .disown _ | .unlockRelease _ => .code .run
  | .xchg i => .loop i
  | .sleep i => .sleep i
  | .sleepRelease i => .sleepRelease i
  | .sleepMark i => .sleepMark i
  | .sleepWoken i => .sleepWoken i
  | .wakeup1 i rest => .wakeup1 i rest true
  | .yield k => .yield k.view
  | .yieldMark k => .yieldMark k.view
  | .sched resume => .sched resume.view
  | .switched resume => .switched resume.view
  | .resumed resume => .resumed resume.view

def Pc.ncli : Pc → Nat
  | .code _ | .yield _ => 0
  | .sleepRelease _ => 2
  | _ => 1

def lk (_ : Slot) : Sleep.Lk Unit := .other ()

def lockView (ptlock : Option (Agent n)) (mxlock : Option Thread) :
    Sleep.Lk Unit → Option (Agent n)
  | .ptable => ptlock
  | .other _ => mxlock.map .thread

def takable (mx : KthreadMutex) : Bool := mx.state ≠ .locked

/-- A waiter for a mutex waits until its state is not `LOCKED`. -/
def State.view (s : State n) (owes : Thread → Slot → Bool) :
    Sleep.State n (nproc * nthread) Unit Slot where
  cond := takable ∘ s.mutex
  lock := lockView s.ptlock s.mxlock
  ncli := Pc.ncli ∘ s.pc
  state := s.state
  chan := s.chan
  pc := Pc.view ∘ s.pc
  cpu := s.cpu
  owes := owes

variable {s s' : State n} {t u : Thread} {c : Fin n} {i j : Slot} {pc old : Pc}

@[simp] theorem lockView_ptable {ptlock agent : Option (Agent n)} {mxlock : Option Thread} :
    update (lockView ptlock mxlock) .ptable agent = lockView agent mxlock := by
  funext l
  cases l with
  | ptable => rfl
  | other l => simp [lockView]

@[simp] theorem lockView_mxtable {ptlock : Option (Agent n)} {mxlock : Option Thread}
    {agent : Option (Agent n)} {owner : Option Thread} (h : agent = owner.map .thread) :
    update (lockView ptlock mxlock) (.other ()) agent = lockView ptlock owner := by
  funext l
  cases l with
  | ptable => simp [lockView]
  | other l => simp [lockView, h]

/-- The steps of the general machine that a step of the mutexes stands for. -/
def Follows (s s' : State n) : Prop :=
  ∀ owes : Thread → Slot → Bool, (∀ u i, owes u i = true → (s.pc u).pays i) →
    ∃ acts owes', run (Sleep.step lk) (s.view owes) acts = some (s'.view owes') ∧
      ∀ u i, owes' u i = true → (s'.pc u).pays i

theorem follows_of_run (acts : List (Sleep.Act n (nproc * nthread) Unit Slot))
    (hpc : s'.pc = update s.pc t pc) (hpays : ∀ i, (s.pc t).pays i → pc.pays i)
    (hrun : ∀ owes, run (Sleep.step lk) (s.view owes) acts = some (s'.view owes)) :
    Follows s s' := by
  intro owes howes
  refine ⟨acts, owes, hrun owes, fun u i hu => ?_⟩
  by_cases hut : u = t
  · subst hut
    rw [hpc, update_self]
    exact hpays i (howes u i hu)
  · rw [hpc, update_of_ne hut]
    exact howes u i hu

attribute [local simp] Pc.owes Pc.pays State.goto State.setState State.setMutex Function.comp_update
  Sleep.State.goto Sleep.State.take Sleep.State.drop Sleep.State.setState Pc.view Pc.ncli
  State.view Code.view Resume.view lockView lk

/-- A step inside `sleep`, `wakeup` or `yield` is a step of the general machine. -/
theorem follows_go (hcpu : s.cpu c = .run t) (hpc : s'.pc = update s.pc t pc)
    (hpays : ∀ i, (s.pc t).pays i → pc.pays i)
    (hstep : ∀ owes, Sleep.threadStep lk (s.view owes) c t (s.pc t).view = some (s'.view owes)) :
    Follows s s' := by
  refine follows_of_run [⟨c, .go⟩] hpc hpays fun owes => ?_
  have hstep' : Sleep.step lk (s.view owes) ⟨c, .go⟩ = some (s'.view owes) := by
    rw [← hstep owes]
    simp [Sleep.step, hcpu]
  rw [run, hstep']
  rfl

theorem comp_update_same {ι α β : Type} [DecidableEq ι] {f : α → β} {g : ι → α} {k : ι} {x : α}
    (h : f x = f (g k)) : f ∘ update g k x = f ∘ g := by
  rw [Function.comp_update, h]
  exact update_eq_self k (f ∘ g)

theorem view_goto (hncli : pc.ncli = (s.pc t).ncli) (owes : Thread → Slot → Bool) :
    (s.goto t pc).view owes = (s.view owes).goto t pc.view := by
  simp only [State.view, State.goto, Sleep.State.goto, Function.comp_update, comp_update_same hncli]

/-- Code outside `sleep` and `wakeup` that leaves every mutex as takable as it was. -/
theorem follows_section {mutex : Slot → KthreadMutex} (next : Int) (hpc : s.pc t = old)
    (hview : pc.view = old.view) (hncli : pc.ncli = old.ncli) (hpays : ∀ i, old.pays i → pc.pays i)
    (hmutex : takable ∘ mutex = takable ∘ s.mutex) :
    Follows s ({ s with mutex := mutex, nextmxid := next }.goto t pc) := by
  subst hpc
  refine follows_of_run [] rfl hpays fun owes => ?_
  simp only [run_nil, State.view, State.goto, comp_update_same hview, comp_update_same hncli,
    hmutex]

theorem follows_scanTable (hlock : s.mxlock = some t) (hcpu : s.cpu c = .run t)
    {call : Call} (hpc : s.pc t = .scan call) : Follows s (scanTable s t call) := by
  have hleave : Follows s (s.goto t .leave) :=
    follows_section s.nextmxid hpc rfl rfl (by simp) rfl
  cases call with
  | alloc =>
    simp only [scanTable]
    split
    · exact hleave
    · rename_i i hfind
      have hfree : (s.mutex i).state = .free := by
        simpa [State.findFree] using List.find?_some hfind
      exact follows_section _ hpc rfl rfl (by simp) (comp_update_same (by simp [takable, hfree]))
  | dealloc id =>
    simp only [scanTable]
    split
    · exact hleave
    · split
      · exact hleave
      · rename_i hlocked
        exact follows_section s.nextmxid hpc rfl rfl (by simp)
          (comp_update_same (by simp [takable, hlocked]))
  | lock id =>
    simp only [scanTable]
    split
    · exact hleave
    · split
      · exact fun owes howes => ⟨[], owes, rfl, howes⟩
      · rename_i i _ _
        refine follows_of_run [⟨c, .wait i⟩] rfl (by simp [hpc]) fun owes => ?_
        simp [run, Sleep.step, hcpu, hpc, hlock, Sleep.codeStep]
  | unlock id =>
    simp only [scanTable]
    split
    · exact hleave
    · split
      · exact hleave
      · exact follows_section s.nextmxid hpc rfl rfl (by simp) rfl

theorem wakeTurn_pc : (wakeTurn s u i).pc = s.pc := by
  unfold wakeTurn
  split <;> rfl

theorem view_wakeTurn (owes : Thread → Slot → Bool) :
    (wakeTurn s u i).view owes = Sleep.wakeTurn (s.view owes) u i :=
  apply_ite (fun s : State n => s.view owes) _ _ _

theorem pays_update {owes : Thread → Slot → Bool} {debt : Bool}
    (howes : ∀ u j, owes u j = true → (s.pc u).pays j) (hold : ∀ j, j ≠ i → ¬ (s.pc t).pays j)
    (hdebt : debt = true → pc.pays i) (u : Thread) (j : Slot)
    (hu : update owes t (update (owes t) i debt) u j = true) : (update s.pc t pc u).pays j := by
  by_cases hut : u = t
  · subst hut
    rw [update_self] at hu ⊢
    by_cases hji : j = i
    · subst hji
      exact hdebt (by rwa [update_self] at hu)
    · exact absurd (howes u j (by rwa [update_of_ne hji] at hu)) (hold j hji)
  · rw [update_of_ne hut] at hu ⊢
    exact howes u j hu

theorem follows_unlock (hlock : s.mxlock = some t) (hcpu : s.cpu c = .run t)
    (hpc : s.pc t = .unlock i) :
    Follows s ((s.setMutex i { s.mutex i with state := .unlocked }).goto t (.disown i)) := by
  intro owes howes
  refine ⟨[⟨c, .set i true⟩], update owes t (update (owes t) i (owes t i || !takable (s.mutex i))),
    ?_, pays_update howes (by simp [hpc]) (by simp)⟩
  rw [view_goto (by rw [State.setMutex, hpc]; rfl)]
  simp [run, Sleep.step, hcpu, hpc, hlock, Sleep.codeStep, takable]

theorem follows_xchg (hcpu : s.cpu c = .run t) (hpc : s.pc t = .xchg i) :
    Follows s (xchg s t i) := by
  by_cases hlocked : (s.mutex i).state = .locked
  · have hmutex : takable ∘ update s.mutex i { s.mutex i with state := .locked } =
        takable ∘ s.mutex := comp_update_same (by simp [takable, hlocked])
    refine follows_go hcpu rfl (by simp [hpc]) fun owes => ?_
    simp only [State.view, xchg, State.setMutex, State.goto, hmutex]
    simp [Sleep.threadStep, hpc, hlocked, takable]
  · refine follows_of_run [⟨c, .go⟩, ⟨c, .set i false⟩] rfl (by simp [hpc]) fun owes => ?_
    simp [run, Sleep.step, Sleep.threadStep, Sleep.codeStep, hcpu, hpc, hlocked, takable, xchg]

theorem follows_threadStep (hheld : (s.pc t).mxtable → s.mxlock = some t)
    (hcpu : s.cpu c = .run t) (hpc : s.pc t = pc) (hstep : threadStep s c t pc = some s') :
    Follows s s' := by
  rw [hpc] at hheld
  cases pc with
  | code k =>
    cases k with
    | user => cases hstep
    | enter call =>
      obtain ⟨hfree, rfl⟩ := taken hstep
      refine follows_of_run [⟨c, .acquire (.other ())⟩] rfl (by simp [hpc]) fun owes => ?_
      simp [run, Sleep.step, hcpu, hpc, hfree, Sleep.codeStep]
    | reenter i | wakeup i =>
      obtain ⟨hfree, rfl⟩ := taken hstep
      exact follows_go hcpu rfl (by simp [hpc]) fun owes => by
        simp [Sleep.threadStep, hpc, hfree]
  | scan call =>
    cases hstep
    exact follows_scanTable (hheld trivial) hcpu hpc
  | leave =>
    cases hstep
    refine follows_of_run [⟨c, .release (.other ())⟩] rfl (by simp [hpc]) fun owes => ?_
    simp [run, Sleep.step, hcpu, hpc, hheld trivial, Sleep.codeStep]
  | xchg i =>
    cases hstep
    exact follows_xchg hcpu hpc
  | own i | disown i =>
    cases hstep
    exact follows_section s.nextmxid hpc rfl rfl (by simp) (comp_update_same rfl)
  | sleep i | yield k =>
    obtain ⟨hfree, rfl⟩ := taken hstep
    exact follows_go hcpu rfl (by simp [hpc]) fun owes => by
      simp [Sleep.threadStep, hpc, hfree]
  | sleepRelease i | sleepMark i | sleepWoken i | yieldMark k =>
    cases hstep
    exact follows_go hcpu rfl (by simp [hpc]) fun owes => by
      simp [Sleep.threadStep, hpc]
  | unlock i =>
    cases hstep
    exact follows_unlock (hheld trivial) hcpu hpc
  | unlockRelease i =>
    cases hstep
    refine follows_of_run [⟨c, .release (.other ())⟩, ⟨c, .wakeup i⟩] rfl (by simp [hpc])
      fun owes => ?_
    simp [run, Sleep.step, hcpu, hpc, hheld trivial, Sleep.codeStep]
  | wakeup1 i rest =>
    cases rest with
    | nil =>
      cases hstep
      intro owes howes
      refine ⟨[⟨c, .go⟩], update owes t (update (owes t) i false), ?_,
        pays_update howes (fun j hji => ?_) (by simp)⟩
      · simp [run, Sleep.step, Sleep.threadStep, Sleep.State.paid, hcpu, hpc]
      · simpa [hpc] using hji.symm
    | cons u rest =>
      cases hstep
      have hnext : ((wakeTurn s u i).goto t (.wakeup1 i rest)).pc =
          update s.pc t (.wakeup1 i rest) := by
        rw [State.goto, wakeTurn_pc]
      refine follows_go hcpu hnext (by simp [hpc]) fun owes => ?_
      rw [view_goto (by rw [wakeTurn_pc, hpc]; rfl), view_wakeTurn, hpc]
      rfl
  | sched resume =>
    cases hstep
    exact follows_go hcpu rfl (by simp [hpc]) fun owes => by
      simp [Sleep.threadStep, hpc, Sleep.swtch, swtch]
  | switched resume => cases hstep
  | resumed resume =>
    cases resume with
    | yield k | sleep i =>
      cases hstep
      exact follows_go hcpu rfl (by simp [hpc]) fun owes => by
        simp [Sleep.threadStep, hpc]

/-- The lock of the table is held by who is inside one of its sections. -/
def State.Locked (s : State n) : Prop := Lock.Agrees s.mxlock Pc.mxtable s.pc

theorem locked_threadStep (h : s.Locked) (hpc : s.pc t = pc)
    (hstep : threadStep s c t pc = some s') : s'.Locked := by
  cases pc with
  | code k =>
    cases k with
    | user => cases hstep
    | enter call | reenter i =>
      obtain ⟨hfree, rfl⟩ := taken hstep
      exact h.acquire hfree trivial
    | wakeup i =>
      obtain ⟨-, rfl⟩ := taken hstep
      exact h.keep hpc .rfl
  | sleep i | yield k =>
    obtain ⟨-, rfl⟩ := taken hstep
    exact h.keep hpc .rfl
  | leave | sleepRelease i | unlockRelease i =>
    cases hstep
    exact h.release hpc trivial not_false
  | scan call =>
    cases hstep
    have hkeep : ∀ pc : Pc, pc.mxtable → Lock.Agrees s.mxlock Pc.mxtable (update s.pc t pc) :=
      fun pc hin => h.keep hpc (iff_of_true hin trivial)
    unfold scanTable
    (repeat' split) <;> first | exact h | exact hkeep _ trivial
  | xchg i =>
    cases hstep
    refine h.keep hpc ?_
    split <;> rfl
  | wakeup1 i rest =>
    cases rest with
    | nil =>
      cases hstep
      exact h.keep hpc .rfl
    | cons u rest =>
      cases hstep
      have hlock : (wakeTurn s u i).mxlock = s.mxlock := by
        unfold wakeTurn
        split <;> rfl
      rw [State.Locked, State.goto, wakeTurn_pc, hlock]
      exact h.keep hpc .rfl
  | resumed resume => cases resume <;> cases hstep <;> exact h.keep hpc .rfl
  | switched resume => cases hstep
  | _ =>
    cases hstep
    exact h.keep hpc .rfl

theorem follows_step {a : Act n} (h : s.Locked) (hstep : step s a = some s') :
    Follows s s' ∧ s'.Locked := by
  obtain ⟨c, cmd⟩ := a
  simp only [step] at hstep
  split at hstep
  · cases hstep
  · split at hstep
    · rename_i hcpu
      split at hstep
      · obtain ⟨hfree, rfl⟩ := taken hstep
        refine ⟨fun owes howes => ⟨[⟨c, .go⟩], owes, ?_, howes⟩, h⟩
        simp [run, Sleep.step, hcpu, hfree]
      · cases hstep
    · rename_i hcpu
      split at hstep
      · cases hstep
        refine ⟨fun owes howes => ⟨[⟨c, .go⟩], owes, ?_, howes⟩, h⟩
        simp [run, Sleep.step, hcpu]
      · split at hstep
        · rename_i t _ resume hpc
          obtain ⟨hrunnable, rfl⟩ := taken hstep
          refine ⟨follows_of_run [⟨c, .pick t⟩] rfl (by simp [hpc]) fun owes => ?_,
            h.keep hpc .rfl⟩
          simp [run, Sleep.step, hcpu, hpc, hrunnable, Sleep.pick, pick]
        · cases hstep
      · cases hstep
    · rename_i t hcpu
      split at hstep
      · exact ⟨follows_threadStep (h t).mpr hcpu rfl hstep, locked_threadStep h rfl hstep⟩
      · obtain ⟨hpc, rfl⟩ := taken hstep
        exact ⟨follows_section s.nextmxid hpc rfl rfl (by simp) rfl, h.keep hpc .rfl⟩
      · split at hstep
        · rename_i k hpc
          cases hstep
          refine ⟨follows_of_run [⟨c, .tick⟩] rfl (by simp [hpc]) fun owes => ?_, h.keep hpc .rfl⟩
          simp [run, Sleep.step, hcpu, hpc]
        · cases hstep
      · cases hstep

/-- What the general machine knows of its view of the mutexes. -/
structure Inv (s : State n) : Prop where
  locked : s.Locked
  view : ∃ owes, Sleep.Inv lk (s.view owes) ∧ ∀ u i, owes u i = true → (s.pc u).pays i

theorem inv_boot (n : Nat) (ready : Thread → Bool) : Inv (boot n ready) where
  locked := by simp [State.Locked, Lock.Agrees, boot, Pc.mxtable]
  view := by
    have hlock : (lockView none none : _ → Option (Agent n)) = fun _ => none := by
      funext l
      cases l <;> rfl
    refine ⟨fun _ _ => false, ?_, nofun⟩
    simp only [State.view, boot, hlock]
    exact Sleep.inv_boot (fun _ => true) ready

theorem inv_step {a : Act n} (h : Inv s) (hstep : step s a = some s') : Inv s' := by
  obtain ⟨owes, hinv, howes⟩ := h.view
  obtain ⟨hfollows, hlocked⟩ := follows_step h.locked hstep
  obtain ⟨acts, owes', hrun, howes'⟩ := hfollows owes howes
  exact ⟨hlocked, owes', Sleep.inv_run hinv hrun, howes'⟩

theorem Pc.owes_of_pays (h : pc.pays i)
    (hrest : ∀ rest release, pc.view = .wakeup1 i rest release → t ∈ rest) : pc.owes i t := by
  cases pc with
  | wakeup1 j rest =>
    cases h
    exact ⟨rfl, hrest rest true rfl⟩
  | _ => exact h

/-- Outside any mutex call, or off the CPU inside the `sleep` of a lock. -/
def Pc.atRest : Pc → Prop
  | .code k | .yield k | .yieldMark k => k = .user
  | .sched (.yield k) | .switched (.yield k) | .resumed (.yield k) => k = .user
  | .switched (.sleep _) => True
  | _ => False

theorem Pc.not_owes (h : pc.atRest) : ¬ pc.owes i t := by
  cases pc with
  | code k | yield k | yieldMark k =>
    cases h
    simp
  | sched resume | switched resume | resumed resume =>
    cases resume with
    | yield k =>
      cases h
      simp
    | sleep j => simp
  | _ => exact h.elim

/-- Whoever sleeps on an unlocked mutex will be reached by a wakeup: an unlock
has stored `UNLOCKED` and its `wakeup1` is still to come to that thread. -/
theorem no_lost_mutex_wakeup {final : State n} (ready : Thread → Bool) (labels : List (Act n))
    (hrun : run step (boot n ready) labels = some final) (i : Slot)
    (hunlocked : (final.mutex i).state = .unlocked) :
    (∀ t, final.sleepsOn t i → ∃ u, (final.pc u).owes i t) ∧
      ((∀ u, (final.pc u).atRest) → ∀ t, ¬ final.sleepsOn t i) := by
  have hkeep : ∀ (s : State n) a next, Inv s → True → step s a = some next → Inv next :=
    fun s a next h _ hstep => inv_step h hstep
  have hfinal : Inv final :=
    run_invariant hkeep (inv_boot n ready) (meets_of_forall (fun _ _ _ => trivial) _) hrun
  have howed : ∀ t, final.sleepsOn t i → ∃ u, (final.pc u).owes i t := by
    intro t ht
    obtain ⟨owes, hinv, howes⟩ := hfinal.view
    rcases hinv.owed t i (.inr ht) with hlocked | ⟨u, hu, hrest⟩
    · simp [takable, hunlocked] at hlocked
    · exact ⟨u, Pc.owes_of_pays (howes u i hu) hrest⟩
  refine ⟨howed, fun hrest t ht => ?_⟩
  obtain ⟨u, hu⟩ := howed t ht
  exact Pc.not_owes (hrest u) hu

def holder : Thread := ⟨0, by decide⟩
def waiter : Thread := ⟨1, by decide⟩
def slot0 : Slot := ⟨0, by decide⟩

/-- One thread holds the mutex, another goes to sleep on it on the other CPU,
and the first is in its unlock, before `wakeup`. -/
def unlockWithSleeper : List (Act 2) :=
  [.go, .pick holder, .go, .call .alloc, .go, .go, .go, .call (.lock 1), .go, .go, .go, .go,
    .go].map (Act.mk leftCpu) ++
  [.go, .pick waiter, .go, .call (.lock 1), .go, .go, .go, .go, .go, .go, .go, .go].map
    (Act.mk rightCpu) ++
  [.call (.unlock 1), .go, .go, .go, .go, .go].map (Act.mk leftCpu)

theorem no_lost_mutex_wakeup_unlock_with_sleeper :
    ∃ final, run step (boot 2 fun t => decide (t = holder ∨ t = waiter)) unlockWithSleeper =
        some final ∧ (final.mutex slot0).state = .unlocked ∧ final.sleepsOn waiter slot0 ∧
      ∃ u, (final.pc u).owes slot0 waiter := by
  obtain ⟨final, hrun, hunlocked, hsleeps⟩ :
      ∃ final, run step (boot 2 fun t => decide (t = holder ∨ t = waiter)) unlockWithSleeper =
        some final ∧ (final.mutex slot0).state = .unlocked ∧
        final.state waiter = .sleeping ∧ final.chan waiter = some slot0 := by
    decide +kernel
  exact ⟨final, hrun, hunlocked, hsleeps,
    (no_lost_mutex_wakeup _ _ hrun slot0 hunlocked).1 waiter hsleeps⟩

end Xv6.Wakeup
