import Mathlib.Data.List.FinRange
import Xv6.Basic
import Xv6.Lib.Lock
import Xv6.Lib.Transition

/-! `fork`, `cow_fork`, `exit`, `wait` and `cow_wait` of processes with one
thread each, entry by entry through the process table. A process takes its steps
on whatever CPU runs it; what it does outside `ptable.lock` interleaves with the
scans of the others. -/
namespace Xv6.Family
open Function Transition

abbrev Id := Fin nproc

/-- `struct proc` with the state and the channel of its one thread. The only
channel here is the address of a process, in `wait`. -/
structure Proc where
  state : ProcState
  pid : Int
  parent : Option Id
  killed : Bool
  tstate : ProcState
  chan : Option Id

inductive Call where
  | fork
  | cowFork
  | exit
  | wait
  | cowWait
deriving DecidableEq

/-- Where the thread of a process is. `fork` and `cow_fork` differ in `copyuvm`
and `cow_shareuvm` only, `wait` and `cow_wait` in `freevm` and `cow_freevm`. -/
inductive Pc where
  /-- No thread, or one that has left its CPU for good. -/
  | gone
  /-- In no call; what the last one returned. -/
  | user (ret : Option Int)
  | allocproc
  /-- In `allocthread` for the new process `q`. -/
  | kalloc (q : Id)
  | copyuvm (q : Id)
  /-- Before `np->parent = proc`. -/
  | setParent (q : Id)
  /-- Before the last `acquire(&ptable.lock)` of `fork`. -/
  | forkDone (q : Id)
  /-- In `exit`, before `acquire(&ptable.lock)`. -/
  | exit
  /-- In `exit`, before `wakeup1(proc->parent)`. -/
  | exitWake
  /-- In the loop that passes the children to `init`. -/
  | exitScan (rest : List Id)
  /-- In `exit`, before the stores of `ZOMBIE`. -/
  | exitMark
  /-- In `exit`, before `sched`. -/
  | exited
  /-- In `wait`, before `acquire(&ptable.lock)`. -/
  | wait
  | waitScan (rest : List Id) (havekids : Bool)
  /-- In `sleep`, before the stores to `chan` and `state`. -/
  | waitSleep
  /-- In `sleep`, before `sched`. -/
  | waitSched
  /-- Switched away in `sleep`. -/
  | waiting
  /-- `panic("init exiting")`. -/
  | panic
deriving DecidableEq

/-- What is remembered of a run, by pid: the end of a `fork` with the parent,
the section of `exit`, and a `wait` that returned a pid to a caller. -/
inductive Event where
  | forked (pid parent : Int)
  | exited (pid : Int)
  | waited (pid caller : Int)
deriving DecidableEq

structure State where
  proc : Id → Proc
  pc : Id → Pc
  initproc : Id
  nextpid : Int
  lock : Option Id
  events : List Event

def init : Id := proc0

def initPid : Int := 1

def boot : State where
  proc := fun p =>
    if p = init then ⟨.runnable, initPid, none, false, .runnable, none⟩
    else ⟨.unused, 0, none, false, .unused, none⟩
  pc := fun p => if p = init then .user none else .gone
  initproc := init
  nextpid := 2
  lock := none
  events := []

def State.goto (s : State) (p : Id) (pc : Pc) : State :=
  { s with pc := update s.pc p pc }

def State.setProc (s : State) (p : Id) (proc : Proc) : State :=
  { s with proc := update s.proc p proc }

def State.log (s : State) (e : Event) : State :=
  { s with events := e :: s.events }

/-- `wakeup1`; no thread sleeps on channel 0. -/
def wakeup1 (s : State) (chan : Option Id) : State :=
  { s with
    proc := fun p =>
      if (s.proc p).tstate = .sleeping ∧ (s.proc p).chan = chan ∧ chan.isSome then
        { s.proc p with tstate := .runnable }
      else s.proc p }

def allocproc (s : State) (p q : Id) : State :=
  ({ s.setProc q { s.proc q with state := .embryo, pid := s.nextpid, tstate := .unused } with
    nextpid := s.nextpid + 1 }).goto p (.kalloc q)

def forkFailed (s : State) (p q : Id) : State :=
  (s.setProc q { s.proc q with state := .unused, tstate := .unused }).goto p (.user (some (-1)))

def setParent (s : State) (p q : Id) : State :=
  (s.setProc q { s.proc q with parent := some p }).goto p (.forkDone q)

def forkDone (s : State) (p q : Id) : State :=
  (((s.setProc q { s.proc q with state := .runnable, tstate := .runnable }).log
    (.forked (s.proc q).pid (s.proc p).pid)).goto q (.user none)).goto p
      (.user (some (s.proc q).pid))

def exitTurn (s : State) (p q : Id) : State :=
  if (s.proc q).parent = some p then
    let given := s.setProc q { s.proc q with parent := some s.initproc }
    if (s.proc q).state = .zombie then wakeup1 given (some s.initproc) else given
  else s

def exitMark (s : State) (p : Id) : State :=
  (s.setProc p { s.proc p with state := .zombie, tstate := .zombie, chan := none }).goto p .exited

/-- `sleep(proc, &ptable.lock)` up to `sched`. -/
def waitSleep (s : State) (p : Id) : State :=
  (s.setProc p { s.proc p with tstate := .sleeping, chan := some p }).goto p .waitSched

def waitReap (s : State) (p q : Id) : State :=
  ({ (s.setProc q { s.proc q with state := .unused, pid := 0, parent := none, killed := false }).log
    (.waited (s.proc q).pid (s.proc p).pid) with lock := none }).goto p
      (.user (some (s.proc q).pid))

def go (s : State) (p : Id) : Pc → Option State
  | .setParent q => some (setParent s p q)
  | .forkDone q => if s.lock = none then some (forkDone s p q) else none
  | .exit =>
    if s.lock = none then
      some (({ s with lock := some p }.log (.exited (s.proc p).pid)).goto p .exitWake)
    else none
  | .exitWake =>
    some ((wakeup1 s (s.proc p).parent).goto p (.exitScan (List.finRange nproc)))
  | .exitScan (q :: rest) => some ((exitTurn s p q).goto p (.exitScan rest))
  | .exitScan [] => some (s.goto p .exitMark)
  | .exitMark => some (exitMark s p)
  | .exited => some ({ s with lock := none }.goto p .gone)
  | .wait =>
    if s.lock = none then
      some ({ s with lock := some p }.goto p (.waitScan (List.finRange nproc) false))
    else none
  | .waitScan (q :: rest) havekids =>
    if (s.proc q).parent = some p then
      if (s.proc q).state = .zombie then some (waitReap s p q)
      else some (s.goto p (.waitScan rest true))
    else some (s.goto p (.waitScan rest havekids))
  | .waitScan [] havekids =>
    if havekids = false ∨ (s.proc p).killed then
      some ({ s with lock := none }.goto p (.user (some (-1))))
    else some (s.goto p .waitSleep)
  | .waitSleep => some (waitSleep s p)
  | .waitSched => some ({ s with lock := none }.goto p .waiting)
  | _ => none

/-- Positions without `ptable.lock`, where a timer interrupt can come in. -/
def Pc.unlocked : Pc → Bool
  | .user _ | .allocproc | .kalloc _ | .copyuvm _ | .setParent _ | .forkDone _ => true
  | .exit | .wait => true
  | _ => false

def Call.entry (p initproc : Id) : Call → Pc
  | .fork | .cowFork => .allocproc
  | .exit => if p = initproc then .panic else .exit
  | .wait | .cowWait => .wait

inductive Act where
  | call (p : Id) (call : Call)
  | go (p : Id)
  /-- `allocproc` finds an `UNUSED` entry, or none. -/
  | alloc (p : Id) (found : Option Id)
  | kalloc (p : Id) (ok : Bool)
  | copyuvm (p : Id) (ok : Bool)
  | kill (p : Id) (pid : Int)
  /-- A timer interrupt, with the `yield` of `trap`. -/
  | tick (p : Id)
  /-- The scheduler of a CPU switches to the thread. -/
  | pick (p : Id)

def kill (s : State) (pid : Int) : State :=
  match (List.finRange nproc).find? fun q => (s.proc q).pid = pid with
  | none => s
  | some q => s.setProc q { s.proc q with killed := true }

def running (s : State) (p : Id) : Act → Option State
  | .call _ call =>
    match s.pc p with
    | .user _ => some (s.goto p (call.entry p s.initproc))
    | _ => none
  | .go _ => go s p (s.pc p)
  | .alloc _ found =>
    if s.pc p = .allocproc ∧ s.lock = none then
      match found with
      | none => some (s.goto p (.user (some (-1))))
      | some q => if (s.proc q).state = .unused then some (allocproc s p q) else none
    else none
  | .kalloc _ ok =>
    match s.pc p with
    | .kalloc q =>
      if ok then
        some ((s.setProc q { s.proc q with tstate := .embryo }).goto p (.copyuvm q))
      else some (s.goto p (.user (some (-1))))
    | _ => none
  | .copyuvm _ ok =>
    match s.pc p with
    | .copyuvm q => if ok then some (s.goto p (.setParent q)) else some (forkFailed s p q)
    | _ => none
  | .kill _ pid => if s.lock = none then some (kill s pid) else none
  | .tick _ =>
    if (s.pc p).unlocked ∧ s.lock = none then
      some (s.setProc p { s.proc p with tstate := .runnable })
    else none
  | .pick _ => none

def Act.proc : Act → Id
  | .call p _ | .go p | .alloc p _ | .kalloc p _ | .copyuvm p _ | .kill p _ | .tick p | .pick p => p

/-- The scheduler leaves `ptable.lock` to a thread that it wakes inside `sleep`. -/
def pick (s : State) (p : Id) : Option State :=
  if (s.proc p).tstate = .runnable ∧ s.lock = none then
    if s.pc p = .waiting then
      some ({ s.setProc p { s.proc p with tstate := .running, chan := none } with
        lock := some p }.goto p (.waitScan (List.finRange nproc) false))
    else some (s.setProc p { s.proc p with tstate := .running })
  else none

/-- A thread that has marked itself is on its CPU up to the switch in `sched`. -/
def State.onCpu (s : State) (p : Id) : Prop :=
  (s.proc p).tstate = .running ∨ s.pc p = .waitSched ∨ s.pc p = .exited

instance (s : State) (p : Id) : Decidable (s.onCpu p) :=
  inferInstanceAs (Decidable (_ ∨ _))

def step (s : State) (a : Act) : Option State :=
  match a with
  | .pick p => pick s p
  | _ => if s.onCpu a.proc then running s a.proc a else none

variable {s s' : State} {p q r : Id} {pc pc' : Pc} {e : Event}

def State.state (s : State) (p : Id) : ProcState := (s.proc p).state

def State.pid (s : State) (p : Id) : Int := (s.proc p).pid

def State.parent (s : State) (p : Id) : Option Id := (s.proc p).parent

def State.tstate (s : State) (p : Id) : ProcState := (s.proc p).tstate

def Pc.locked : Pc → Prop
  | .exitWake | .exitScan _ | .exitMark | .exited => True
  | .waitScan _ _ | .waitSleep | .waitSched => True
  | _ => False

def Pc.live : Pc → Prop
  | .gone | .exited => False
  | _ => True

def Pc.exits : Pc → Prop
  | .exit | .exitWake | .exitScan _ | .exitMark | .exited => True
  | _ => False

def Pc.leaves : Pc → Prop
  | .exitWake | .exitScan _ | .exitMark | .exited => True
  | _ => False

/-- In `exit`, after `wakeup1(proc->parent)` and before the stores of `ZOMBIE`. -/
def Pc.told : Pc → Prop
  | .exitScan _ | .exitMark => True
  | _ => False

attribute [local simp] State.setProc State.goto Pc.locked Pc.exits State.tstate State.pid
  State.log Pc.told

def Pc.forks : Pc → Option Id
  | .kalloc q | .copyuvm q | .setParent q | .forkDone q => some q
  | _ => none

def Pc.keeps (q : Id) : Pc → Prop
  | .exitScan rest => q ∈ rest
  | .exitMark => False
  | _ => True

/-- The entries that the scan of `wait` has passed. -/
def Pc.passed (q : Id) : Pc → Prop
  | .waitScan rest _ => q ∉ rest
  | .waitSleep => True
  | _ => False

/-- The parent of the process that a `fork` makes. -/
def Pc.gives (p : Id) : Pc → Option Id
  | .forkDone _ => some p
  | _ => none

structure At (s : State) (p : Id) (pc : Pc) : Prop where
  live : pc.live ↔ s.state p = .runnable
  init : p = s.initproc → ¬ pc.exits
  zombie : pc = .exited → s.state p = .zombie
  forks : ∀ q, pc.forks = some q → s.state q = .embryo ∧ s.parent q = pc.gives p
  keeps : ∀ q, s.parent q = some p → pc.keeps q
  passed : ∀ q, s.parent q = some p → pc.passed q → s.state q ≠ .zombie
  event : pc.leaves → .exited (s.pid p) ∈ s.events

structure Table (s : State) : Prop where
  initAlive : s.state s.initproc = .runnable
  initParent : s.parent s.initproc = none
  self : ∀ p, s.parent p ≠ some p
  parent : ∀ p q, s.parent q = some p → s.state p = .runnable ∧ s.state q ≠ .unused
  orphan : ∀ q, q ≠ s.initproc → s.state q ≠ .unused ∧ s.state q ≠ .embryo →
    ∃ p, s.parent q = some p
  fresh : ∀ p, s.state p ≠ .unused → s.pid p < s.nextpid
  pids : ∀ p q, s.state p ≠ .unused → s.state q ≠ .unused → s.pid p = s.pid q → p = q

structure Sleepers (s : State) : Prop where
  asleep : ∀ p, s.tstate p = .sleeping →
    (s.proc p).chan = some p ∧ (s.pc p = .waitSched ∨ s.pc p = .waiting)
  quiet : ∀ p q, s.tstate p = .sleeping → s.parent q = some p →
    s.state q ≠ .zombie ∧ ¬ (s.pc q).told

/-- A `wait` returns the pid of an exited process that no `wait` has returned
before, and returns it to its parent or, when that has exited, to `init`. -/
def Reaped (before : List Event) (pid caller : Int) : Prop :=
  .exited pid ∈ before ∧ (∀ c, .waited pid c ∉ before) ∧
    ∃ parent, .forked pid parent ∈ before ∧
      (caller = parent ∨ caller = initPid ∧ .exited parent ∈ before)

def History : List Event → Prop
  | [] => True
  | .waited pid caller :: before => Reaped before pid caller ∧ History before
  | _ :: before => History before

/-- The parent of a process made it, or is `init` after the exit of the one that
made it. -/
def Lineage (s : State) (q : Id) : Prop :=
  ∃ pid, .forked (s.pid q) pid ∈ s.events ∧
    ((∃ p, s.parent q = some p ∧ s.pid p = pid) ∨
      s.parent q = some s.initproc ∧ .exited pid ∈ s.events)

structure Past (s : State) : Prop where
  lineage : ∀ q, q ≠ s.initproc → s.state q ≠ .unused ∧ s.state q ≠ .embryo → Lineage s q
  zombie : ∀ q, s.state q = .zombie → .exited (s.pid q) ∈ s.events
  gone : ∀ pid c, .waited pid c ∈ s.events → pid < s.nextpid ∧
    ∀ q, s.state q ≠ .unused → s.pid q ≠ pid
  history : History s.events
  initPid : s.pid s.initproc = initPid

structure Inv (s : State) : Prop where
  lock : Lock.Agrees s.lock Pc.locked s.pc
  at' : ∀ p, At s p (s.pc p)
  once : ∀ p p' q, (s.pc p).forks = some q → (s.pc p').forks = some q → p = p'
  table : Table s
  sleepers : Sleepers s
  past : Past s

theorem inv_boot : Inv boot := by
  have hstate : ∀ p, p ≠ init → boot.state p = .unused := fun p hp => by
    simp [State.state, boot, hp]
  have hparent : ∀ p, boot.parent p = none := fun p => by
    by_cases hp : p = init <;> simp [State.parent, boot, hp]
  have hpc : ∀ p, boot.pc p = .user none ∨ boot.pc p = .gone := fun p => by
    by_cases hp : p = init <;> simp [boot, hp]
  refine ⟨?_, ?_, ?_, ⟨by simp [State.state, boot], hparent _, ?_, ?_, ?_, ?_, ?_⟩, ⟨?_, ?_⟩,
    ⟨?_, ?_, ?_, trivial, by simp [boot]⟩⟩
  · intro p
    have hlock : boot.lock = none := rfl
    rcases hpc p with hp | hp <;> simp [hlock, hp]
  · intro p
    refine ⟨?_, ?_, ?_, ?_, by simp [hparent], by simp [hparent], ?_⟩
    · by_cases hp : p = init <;> simp [boot, State.state, Pc.live, hp]
    all_goals rcases hpc p with hp | hp <;> simp [hp, Pc.forks, Pc.leaves]
  · intro p p' q hp
    rcases hpc p with heq | heq <;> simp [heq, Pc.forks] at hp
  · simp [hparent]
  · simp [hparent]
  · intro q hq hlive
    simp [hstate q hq] at hlive
  · intro p hp
    by_cases hinit : p = init
    · simp [hinit, boot, initPid]
    · exact absurd (hstate p hinit) hp
  · intro p q hp hq _
    by_cases hpi : p = init
    · by_cases hqi : q = init
      · rw [hpi, hqi]
      · exact absurd (hstate q hqi) hq
    · exact absurd (hstate p hpi) hp
  · intro p hp
    by_cases hinit : p = init <;> simp [boot, hinit] at hp
  · simp [hparent]
  · intro q hq hlive
    simp [hstate q hq] at hlive
  · intro q hq
    by_cases hinit : q = init
    · simp [hinit, State.state, boot] at hq
    · simp [hstate q hinit] at hq
  · simp [boot]

/-! ### Steps that keep the table -/

/-- Nothing changes that is seen of processes, apart from thread states; an
`exit` may have begun. -/
structure Same (s s' : State) : Prop where
  state : ∀ p, s'.state p = s.state p
  pid : ∀ p, s'.pid p = s.pid p
  parent : ∀ p, s'.parent p = s.parent p
  initproc : s'.initproc = s.initproc
  nextpid : s'.nextpid = s.nextpid
  events : s'.events = s.events ∨ ∃ pid, s'.events = .exited pid :: s.events

theorem Same.of_eq (hproc : s'.proc = s.proc) (hinit : s'.initproc = s.initproc)
    (hnext : s'.nextpid = s.nextpid)
    (hevents : s'.events = s.events ∨ ∃ pid, s'.events = .exited pid :: s.events) :
    Same s s' where
  state := fun p => by rw [State.state, hproc, State.state]
  pid := fun p => by rw [State.pid, hproc, State.pid]
  parent := fun p => by rw [State.parent, hproc, State.parent]
  initproc := hinit
  nextpid := hnext
  events := hevents

variable {proc : Proc}

theorem Same.of_update (hproc : s'.proc = update s.proc q proc)
    (hstate : proc.state = s.state q) (hpid : proc.pid = s.pid q)
    (hparent : proc.parent = s.parent q) (hinit : s'.initproc = s.initproc)
    (hnext : s'.nextpid = s.nextpid) (hevents : s'.events = s.events) : Same s s' := by
  refine ⟨fun p => ?_, fun p => ?_, fun p => ?_, hinit, hnext, .inl hevents⟩
  all_goals
    by_cases hp : p = q
    · simp [State.state, State.parent, *]
    · simp [State.state, State.parent, hproc, hp]

theorem Same.mem (hs : Same s s') (he : e ∈ s.events) : e ∈ s'.events := by
  rcases hs.events with heq | ⟨pid, heq⟩
  · rwa [heq]
  · rw [heq]
    exact List.mem_cons_of_mem _ he

theorem Same.waited (hs : Same s s') {pid c : Int} (he : .waited pid c ∈ s'.events) :
    .waited pid c ∈ s.events := by
  rcases hs.events with heq | ⟨pid', heq⟩
  · rwa [heq] at he
  · rw [heq] at he
    exact (List.mem_cons.mp he).resolve_left (by simp)

theorem Same.history (hs : Same s s') (h : History s.events) : History s'.events := by
  rcases hs.events with heq | ⟨pid, heq⟩ <;> rw [heq] <;> exact h

theorem At.congr (h : At s p pc) (hs : Same s s') : At s' p pc where
  live := by rw [hs.state]; exact h.live
  init := by rw [hs.initproc]; exact h.init
  zombie := by rw [hs.state]; exact h.zombie
  forks := fun q hq => by rw [hs.state, hs.parent]; exact h.forks q hq
  keeps := fun q hq => h.keeps q (by rwa [hs.parent] at hq)
  passed := fun q hq => by rw [hs.state]; exact h.passed q (by rwa [hs.parent] at hq)
  event := fun hleaves => by rw [hs.pid]; exact hs.mem (h.event hleaves)

theorem Table.congr (h : Table s) (hs : Same s s') : Table s' where
  initAlive := by rw [hs.initproc, hs.state]; exact h.initAlive
  initParent := by rw [hs.initproc, hs.parent]; exact h.initParent
  self := fun p => by rw [hs.parent]; exact h.self p
  parent := fun p q => by rw [hs.parent, hs.state, hs.state]; exact h.parent p q
  orphan := fun q => by rw [hs.initproc, hs.state, hs.parent]; exact h.orphan q
  fresh := fun p => by rw [hs.state, hs.pid, hs.nextpid]; exact h.fresh p
  pids := fun p q => by rw [hs.state, hs.state, hs.pid, hs.pid]; exact h.pids p q

theorem Lineage.congr (h : Lineage s q) (hs : Same s s') : Lineage s' q := by
  obtain ⟨pid, hforked, hcases⟩ := h
  refine ⟨pid, by rw [hs.pid]; exact hs.mem hforked, hcases.imp ?_ ?_⟩
  · rintro ⟨p, hparent, hpid⟩
    exact ⟨p, by rwa [hs.parent], by rwa [hs.pid]⟩
  · rintro ⟨hparent, hexited⟩
    exact ⟨by rwa [hs.parent, hs.initproc], hs.mem hexited⟩

theorem Past.congr (h : Past s) (hs : Same s s') : Past s' where
  lineage := fun q hq hlive =>
    (h.lineage q (by rwa [hs.initproc] at hq) (by rwa [hs.state] at hlive)).congr hs
  zombie := fun q hq => by
    rw [hs.pid]
    exact hs.mem (h.zombie q (by rwa [hs.state] at hq))
  gone := fun pid c hwaited => by
    obtain ⟨hlt, hnone⟩ := h.gone pid c (hs.waited hwaited)
    refine ⟨by rwa [hs.nextpid], fun q => ?_⟩
    rw [hs.state, hs.pid]
    exact hnone q
  history := hs.history h.history
  initPid := by rw [hs.initproc, hs.pid]; exact h.initPid

theorem once_of_update (h : Inv s) (hpc : s'.pc = update s.pc p pc)
    (hforks : pc.forks = none ∨ pc.forks = (s.pc p).forks) (r r' x : Id)
    (hr : (s'.pc r).forks = some x) (hr' : (s'.pc r').forks = some x) : r = r' := by
  have hold : ∀ r, (s'.pc r).forks = some x → (s.pc r).forks = some x := by
    intro r hr
    rw [hpc] at hr
    by_cases hrp : r = p
    · subst hrp
      rw [update_self] at hr
      rcases hforks with hnone | hsame
      · rw [hnone] at hr
        cases hr
      · rwa [← hsame]
    · rwa [update_of_ne hrp] at hr
  exact h.once r r' x (hold r hr) (hold r' hr')

theorem Inv.same (h : Inv s) (hs : Same s s') (hpc : s'.pc = update s.pc p pc)
    (hlock : Lock.Agrees s'.lock Pc.locked (update s.pc p pc)) (hat : At s' p pc)
    (hforks : pc.forks = none ∨ pc.forks = (s.pc p).forks) (hsleepers : Sleepers s') : Inv s' where
  lock := by rwa [hpc]
  at' := by
    intro r
    rw [hpc]
    by_cases hr : r = p
    · subst hr
      rwa [update_self]
    · rw [update_of_ne hr]
      exact (h.at' r).congr hs
  once := once_of_update h hpc hforks
  table := h.table.congr hs
  sleepers := hsleepers
  past := h.past.congr hs

theorem Sleepers.step (h : Sleepers s) (hs : Same s s') (hpc : s'.pc = update s.pc p pc)
    (hproc : ∀ r, s'.tstate r = .sleeping → s.tstate r = .sleeping ∧
      (s'.proc r).chan = (s.proc r).chan)
    (hself : s'.tstate p = .sleeping → pc = .waitSched ∨ pc = .waiting)
    (htold : pc.told → ∀ r, s.parent p = some r → s'.tstate r ≠ .sleeping) : Sleepers s' where
  asleep := by
    intro r hr
    obtain ⟨hold, hchan⟩ := hproc r hr
    refine ⟨hchan.trans (h.asleep r hold).1, ?_⟩
    rw [hpc]
    by_cases hrp : r = p
    · subst hrp
      rw [update_self]
      exact hself hr
    · rw [update_of_ne hrp]
      exact (h.asleep r hold).2
  quiet := by
    intro r q hr hparent
    rw [hs.parent] at hparent
    rw [hs.state, hpc]
    obtain ⟨hzombie, hnot⟩ := h.quiet r q (hproc r hr).1 hparent
    refine ⟨hzombie, ?_⟩
    by_cases hqp : q = p
    · subst hqp
      rw [update_self]
      exact fun hpc' => htold hpc' r hparent hr
    · rwa [update_of_ne hqp]

theorem Inv.walk (h : Inv s) (hproc : s'.proc = s.proc) (hinit : s'.initproc = s.initproc)
    (hnext : s'.nextpid = s.nextpid) (hevents : s'.events = s.events)
    (hpc : s'.pc = update s.pc p pc)
    (hlock : Lock.Agrees s'.lock Pc.locked (update s.pc p pc)) (hat : At s p pc)
    (hforks : pc.forks = none ∨ pc.forks = (s.pc p).forks)
    (hawake : s.tstate p ≠ .sleeping ∨ pc = .waiting) (htold : pc.told → (s.pc p).told) :
    Inv s' := by
  have hs := Same.of_eq hproc hinit hnext (.inl hevents)
  refine h.same hs hpc hlock (hat.congr hs) hforks (h.sleepers.step hs hpc ?_ ?_ ?_)
  · intro r hr
    rw [State.tstate, hproc] at hr
    exact ⟨hr, by rw [hproc]⟩
  · intro hp
    rw [State.tstate, hproc] at hp
    exact .inr (hawake.resolve_left fun hne => hne hp)
  · intro hpc' r hparent hr
    rw [State.tstate, hproc] at hr
    exact (h.sleepers.quiet r p hr hparent).2 (htold hpc')

/-! ### Steps that change the table -/

theorem Pc.locked_of_leaves (h : pc.leaves) : pc.locked := by
  cases pc <;> trivial

theorem Pc.locked_of_told (h : pc.told) : pc.locked := by
  cases pc <;> trivial

theorem Pc.locked_of_passed (h : pc.passed q) : pc.locked := by
  cases pc <;> trivial

theorem Pc.keeps_of_not_exits (h : ¬ pc.exits) : pc.keeps q := by
  cases pc <;> first | trivial | exact absurd trivial h

theorem Pc.exits_of_leaves (h : pc.leaves) : pc.exits := by
  cases pc <;> trivial

theorem Pc.live_of_forks (h : pc.forks = some q) : pc.live := by
  cases pc <;> trivial

theorem Pc.eq_of_gives (h : pc.gives p = some q) : q = p := by
  cases pc <;> simp_all [Pc.gives]

theorem Pc.gone_of_not_live (h : ¬ pc.live) (hexited : pc ≠ .exited) : pc = .gone := by
  cases pc <;> first | rfl | exact absurd trivial h | exact absurd rfl hexited

/-- Outside of `exit` it is enough to know of the process that is made, and of the
children that `wait` has passed. -/
theorem At.calm (hexits : ¬ pc.exits) (hlive : pc.live ↔ s.state p = .runnable)
    (hforks : ∀ q, pc.forks = some q → s.state q = .embryo ∧ s.parent q = pc.gives p)
    (hpassed : ∀ q, s.parent q = some p → pc.passed q → s.state q ≠ .zombie) : At s p pc where
  live := hlive
  init := fun _ => hexits
  zombie := by
    rintro rfl
    exact absurd trivial hexits
  forks := hforks
  keeps := fun _ _ => Pc.keeps_of_not_exits hexits
  passed := hpassed
  event := fun hleaves => absurd (Pc.exits_of_leaves hleaves) hexits

namespace Inv

variable (h : Inv s)
include h

theorem runnable (hp : (s.pc p).live) : s.state p = .runnable :=
  (h.at' p).live.mp hp

theorem orphanless (hq : s.state q = .unused) : s.parent q = none := by
  cases hparent : s.parent q with
  | none => rfl
  | some p => exact absurd hq (h.table.parent p q hparent).2

theorem not_leaves (hq : s.state q = .unused ∨ s.state q = .embryo) : ¬ (s.pc q).leaves := by
  intro hleaves
  by_cases hlive : (s.pc q).live
  · rcases hq with hq | hq <;> cases hq.symm.trans (h.runnable hlive)
  · have hexited : s.pc q = .exited := by
      cases hpc : s.pc q <;> simp_all [Pc.leaves, Pc.live]
    rcases hq with hq | hq <;> cases hq.symm.trans ((h.at' q).zombie hexited)

theorem not_exited (hq : s.state q ≠ .zombie) : s.pc q ≠ .exited :=
  fun hpc => hq ((h.at' q).zombie hpc)

theorem awake (hpc : s.pc p = pc) (hpc' : pc ≠ .waitSched ∧ pc ≠ .waiting) :
    s.tstate p ≠ .sleeping := fun hsleep =>
  (h.sleepers.asleep p hsleep).2.elim (fun heq => hpc'.1 (hpc.symm.trans heq)) fun heq =>
    hpc'.2 (hpc.symm.trans heq)

end Inv

structure Changes (s s' : State) (q : Id) : Prop where
  state : ∀ r, r ≠ q → s'.state r = s.state r
  pid : ∀ r, r ≠ q → s'.pid r = s.pid r
  parent : ∀ r, r ≠ q → s'.parent r = s.parent r
  initproc : s'.initproc = s.initproc
  nextpid : s.nextpid ≤ s'.nextpid
  events : ∀ e, e ∈ s.events → e ∈ s'.events

theorem At.change (h : At s r pc) (hc : Changes s s' q) (hforks : pc.forks ≠ some q)
    (hself : r = q → (s'.state q = .runnable ↔ s.state q = .runnable) ∧ pc ≠ .exited ∧ ¬ pc.leaves)
    (hparent : s'.parent q = some r → pc.keeps q ∧ (pc.passed q → s'.state q ≠ .zombie)) :
    At s' r pc where
  live := by
    by_cases hr : r = q
    · subst hr
      rw [(hself rfl).1]
      exact h.live
    · rw [hc.state r hr]
      exact h.live
  init := by rw [hc.initproc]; exact h.init
  zombie := by
    intro hpc
    by_cases hr : r = q
    · exact absurd hpc (hself hr).2.1
    · rw [hc.state r hr]
      exact h.zombie hpc
  forks := by
    intro x hx
    have hxq : x ≠ q := fun heq => hforks (heq ▸ hx)
    rw [hc.state x hxq, hc.parent x hxq]
    exact h.forks x hx
  keeps := by
    intro x hx
    by_cases hxq : x = q
    · subst hxq
      exact (hparent hx).1
    · exact h.keeps x (by rwa [hc.parent x hxq] at hx)
  passed := by
    intro x hx hpassed
    by_cases hxq : x = q
    · subst hxq
      exact (hparent hx).2 hpassed
    · rw [hc.state x hxq]
      exact h.passed x (by rwa [hc.parent x hxq] at hx) hpassed
  event := by
    intro hleaves
    by_cases hr : r = q
    · exact absurd hleaves (hself hr).2.2
    · rw [hc.pid r hr]
      exact hc.events _ (h.event hleaves)

theorem Table.change (h : Table s) (hc : Changes s s' q) (hinit : q ≠ s.initproc)
    (hparent : ∀ r, s'.parent q = some r → r ≠ q ∧ s.state r = .runnable ∧ s'.state q ≠ .unused)
    (hchild : s'.state q = .runnable ∨ ∀ x, s.parent x ≠ some q)
    (horphan : s'.state q ≠ .unused ∧ s'.state q ≠ .embryo → ∃ r, s'.parent q = some r)
    (hfresh : s'.state q ≠ .unused → s'.pid q < s'.nextpid)
    (hpids : s'.state q ≠ .unused → ∀ r, r ≠ q → s.state r ≠ .unused → s.pid r ≠ s'.pid q) :
    Table s' where
  initAlive := by
    rw [hc.initproc, hc.state _ (Ne.symm hinit)]
    exact h.initAlive
  initParent := by
    rw [hc.initproc, hc.parent _ (Ne.symm hinit)]
    exact h.initParent
  self := by
    intro x hx
    by_cases hxq : x = q
    · subst hxq
      exact (hparent x hx).1 rfl
    · rw [hc.parent x hxq] at hx
      exact h.self x hx
  parent := by
    intro r x hx
    by_cases hxq : x = q
    · subst hxq
      obtain ⟨hne, hrunnable, hused⟩ := hparent r hx
      exact ⟨by rw [hc.state r hne]; exact hrunnable, hused⟩
    · rw [hc.parent x hxq] at hx
      rw [hc.state x hxq]
      obtain ⟨hrunnable, hused⟩ := h.parent r x hx
      refine ⟨?_, hused⟩
      by_cases hrq : r = q
      · subst hrq
        exact hchild.resolve_right fun hnone => hnone x hx
      · rw [hc.state r hrq]
        exact hrunnable
  orphan := by
    intro x hxi hx
    by_cases hxq : x = q
    · subst hxq
      exact horphan hx
    · rw [hc.state x hxq] at hx
      rw [hc.initproc] at hxi
      rw [hc.parent x hxq]
      exact h.orphan x hxi hx
  fresh := by
    intro x hx
    by_cases hxq : x = q
    · subst hxq
      exact hfresh hx
    · rw [hc.state x hxq] at hx
      rw [hc.pid x hxq]
      exact (h.fresh x hx).trans_le hc.nextpid
  pids := by
    intro x y hx hy hxy
    by_cases hxq : x = q
    · subst hxq
      by_contra hyx
      have hyx' := Ne.symm hyx
      rw [hc.state y hyx'] at hy
      rw [hc.pid y hyx'] at hxy
      exact hpids hx y hyx' hy hxy.symm
    · rw [hc.state x hxq] at hx
      rw [hc.pid x hxq] at hxy
      by_cases hyq : y = q
      · subst hyq
        exact absurd hxy (hpids hy x hxq hx)
      · rw [hc.state y hyq] at hy
        rw [hc.pid y hyq] at hxy
        exact h.pids x y hx hy hxy

theorem Lineage.change (h : Lineage s r) (hc : Changes s s' q) (hr : r ≠ q)
    (hpid : s'.pid q = s.pid q ∨ ∀ x, s.parent x ≠ some q) : Lineage s' r := by
  obtain ⟨pid, hforked, hcases⟩ := h
  refine ⟨pid, by rw [hc.pid r hr]; exact hc.events _ hforked, hcases.imp ?_ ?_⟩
  · rintro ⟨x, hparent, hx⟩
    refine ⟨x, by rwa [hc.parent r hr], ?_⟩
    by_cases hxq : x = q
    · subst hxq
      rw [hpid.resolve_right fun hnone => hnone r hparent]
      exact hx
    · rwa [hc.pid x hxq]
  · rintro ⟨hparent, hexited⟩
    exact ⟨by rwa [hc.parent r hr, hc.initproc], hc.events _ hexited⟩

theorem Past.change (h : Past s) (hc : Changes s s' q) (hinit : q ≠ s.initproc)
    (hpid : s'.pid q = s.pid q ∨ ∀ x, s.parent x ≠ some q)
    (hlineage : s'.state q ≠ .unused ∧ s'.state q ≠ .embryo → Lineage s' q)
    (hzombie : s'.state q = .zombie → .exited (s'.pid q) ∈ s'.events)
    (hwaited : ∀ pid c, .waited pid c ∈ s'.events → .waited pid c ∈ s.events ∨
      (pid < s'.nextpid ∧ s'.state q = .unused ∧
        ∀ r, r ≠ q → s.state r ≠ .unused → s.pid r ≠ pid))
    (hused : s'.state q ≠ .unused → ∀ pid c, .waited pid c ∈ s.events → s'.pid q ≠ pid)
    (hhistory : History s'.events) : Past s' where
  lineage := by
    intro r hri hr
    by_cases hrq : r = q
    · subst hrq
      exact hlineage hr
    · rw [hc.state r hrq] at hr
      rw [hc.initproc] at hri
      exact (h.lineage r hri hr).change hc hrq hpid
  zombie := by
    intro r hr
    by_cases hrq : r = q
    · subst hrq
      exact hzombie hr
    · rw [hc.state r hrq] at hr
      rw [hc.pid r hrq]
      exact hc.events _ (h.zombie r hr)
  gone := by
    intro pid c hpidc
    rcases hwaited pid c hpidc with hold | ⟨hlt, hunused, hnone⟩
    · obtain ⟨hlt, hnone⟩ := h.gone pid c hold
      refine ⟨hlt.trans_le hc.nextpid, fun r hr => ?_⟩
      by_cases hrq : r = q
      · subst hrq
        exact hused hr pid c hold
      · rw [hc.state r hrq] at hr
        rw [hc.pid r hrq]
        exact hnone r hr
    · refine ⟨hlt, fun r hr => ?_⟩
      by_cases hrq : r = q
      · subst hrq
        exact absurd hunused hr
      · rw [hc.state r hrq] at hr
        rw [hc.pid r hrq]
        exact hnone r hrq hr
  history := hhistory
  initPid := by
    rw [hc.initproc, hc.pid _ (Ne.symm hinit)]
    exact h.initPid

/-- Nobody falls asleep, and the entry that is stored to is no new zombie child
of a sleeper. -/
theorem Sleepers.change (h : Sleepers s) (hc : Changes s s' q)
    (hproc : ∀ r, s'.tstate r = .sleeping → s.tstate r = .sleeping ∧
      (s'.proc r).chan = (s.proc r).chan)
    (hpc : ∀ r, s.tstate r = .sleeping → s'.pc r = s.pc r)
    (htold : ∀ r, (s'.pc r).told → (s.pc r).told)
    (hquiet : ∀ r, s'.tstate r = .sleeping → s'.parent q = some r →
      s'.state q ≠ .zombie ∧ ¬ (s'.pc q).told) : Sleepers s' where
  asleep := by
    intro r hr
    obtain ⟨hold, hchan⟩ := hproc r hr
    rw [hchan, hpc r hold]
    exact h.asleep r hold
  quiet := by
    intro r x hr hparent
    by_cases hxq : x = q
    · subst hxq
      exact hquiet r hr hparent
    · rw [hc.parent x hxq] at hparent
      rw [hc.state x hxq]
      obtain ⟨hzombie, hnot⟩ := h.quiet r x (hproc r hr).1 hparent
      exact ⟨hzombie, fun hx => hnot (htold x hx)⟩

theorem Changes.of_update (hproc : s'.proc = update s.proc q proc)
    (hinit : s'.initproc = s.initproc) (hnext : s.nextpid ≤ s'.nextpid)
    (hevents : ∀ e, e ∈ s.events → e ∈ s'.events) : Changes s s' q where
  state := fun r hr => by simp [State.state, hproc, hr]
  pid := fun r hr => by simp [hproc, hr]
  parent := fun r hr => by simp [State.parent, hproc, hr]
  initproc := hinit
  nextpid := hnext
  events := hevents

theorem tstate_of_update (hproc : s'.proc = update s.proc q proc)
    (hq : proc.tstate = .sleeping → s.tstate q = .sleeping ∧ proc.chan = (s.proc q).chan) (r : Id)
    (hr : s'.tstate r = .sleeping) :
    s.tstate r = .sleeping ∧ (s'.proc r).chan = (s.proc r).chan := by
  by_cases hrq : r = q
  · subst hrq
    rw [State.tstate, hproc, update_self] at hr
    rw [hproc, update_self]
    exact hq hr
  · rw [State.tstate, hproc, update_of_ne hrq] at hr
    exact ⟨hr, by rw [hproc, update_of_ne hrq]⟩

theorem pc_of_awake (hpc : s'.pc = update s.pc p pc) (hawake : s.tstate p ≠ .sleeping) (r : Id)
    (hr : s.tstate r = .sleeping) : s'.pc r = s.pc r := by
  have hrp : r ≠ p := by
    rintro rfl
    exact hawake hr
  rw [hpc, update_of_ne hrp]

theorem Inv.pid_kept (h : Inv s) (hc : Changes s s' q) (hq : s.state q ≠ .unused)
    (hpid : s'.pid q = s.pid q) : s'.pid q < s'.nextpid ∧
      (∀ r, r ≠ q → s.state r ≠ .unused → s.pid r ≠ s'.pid q) ∧
      ∀ pid c, .waited pid c ∈ s.events → s'.pid q ≠ pid := by
  rw [hpid]
  exact ⟨(h.table.fresh q hq).trans_le hc.nextpid,
    fun r hr hused hsame => hr (h.table.pids r q hused hq hsame),
    fun pid c hwaited => (h.past.gone pid c hwaited).2 q hq⟩

theorem Inv.at_others (h : Inv s) (hc : Changes s s' q) (hpc : s'.pc = update s.pc p pc)
    (hat : At s' p pc) (hforks : ∀ r, r ≠ p → (s.pc r).forks ≠ some q)
    (hself : q ≠ p → (s'.state q = .runnable ↔ s.state q = .runnable) ∧ s.pc q ≠ .exited ∧
      ¬ (s.pc q).leaves)
    (hparent : ∀ r, r ≠ p → s'.parent q = some r →
      (s.pc r).keeps q ∧ ((s.pc r).passed q → s'.state q ≠ .zombie)) (r : Id) :
    At s' r (s'.pc r) := by
  rw [hpc]
  by_cases hr : r = p
  · subst hr
    rwa [update_self]
  · rw [update_of_ne hr]
    refine (h.at' r).change hc (hforks r hr) ?_ (hparent r hr)
    rintro rfl
    exact hself hr

theorem told_of_update (hpc : s'.pc = update s.pc p pc) (htold : pc.told → (s.pc p).told)
    (r : Id) (hr : (s'.pc r).told) : (s.pc r).told := by
  rw [hpc] at hr
  by_cases hrp : r = p
  · subst hrp
    rw [update_self] at hr
    exact htold hr
  · rwa [update_of_ne hrp] at hr

theorem inv_alloc (h : Inv s) (hpc : s.pc p = .allocproc)
    (hq : s.state q = .unused) : Inv (allocproc s p q) := by
  have hp : s.state p = .runnable := h.runnable (by rw [hpc]; trivial)
  have hpq : p ≠ q := by
    rintro rfl
    cases hq.symm.trans hp
  have hinit : q ≠ s.initproc := by
    rintro rfl
    cases hq.symm.trans h.table.initAlive
  have hc : Changes s (allocproc s p q) q :=
    .of_update rfl rfl (Int.le_add_one le_rfl) fun _ he => he
  have hstate : (allocproc s p q).state q = .embryo := by
    simp [allocproc, State.state]
  have hpid : (allocproc s p q).pid q = s.nextpid := by
    simp [allocproc]
  have hparent : (allocproc s p q).parent q = none := by
    rw [← h.orphanless hq]
    simp [allocproc, State.parent]
  have hnofork : ∀ r, (s.pc r).forks ≠ some q := fun r hr => by
    cases hq.symm.trans ((h.at' r).forks q hr).1
  have hnochild : ∀ x, s.parent x ≠ some q := fun x hx => by
    cases hq.symm.trans (h.table.parent q x hx).1
  refine ⟨h.lock.keep hpc .rfl, ?_, ?_, ?_, ?_, ?_⟩
  · refine h.at_others hc rfl ?_ (fun r _ => hnofork r) ?_ (by simp [hparent])
    · refine .calm (by simp) (iff_of_true trivial ((hc.state p hpq).trans hp)) ?_
        fun _ _ hpassed => hpassed.elim
      rintro x ⟨⟩
      exact ⟨hstate, hparent⟩
    · intro _
      exact ⟨by simp [hstate, hq], h.not_exited (by simp [hq]), h.not_leaves (.inl hq)⟩
  · have hnew : ∀ r x, ((allocproc s p q).pc r).forks = some x →
        (r = p ∧ x = q) ∨ (x ≠ q ∧ (s.pc r).forks = some x) := by
      intro r x hr
      by_cases hrp : r = p
      · subst hrp
        exact .inl ⟨rfl, by simpa [allocproc, Pc.forks, eq_comm] using hr⟩
      · have hold : (s.pc r).forks = some x := by
          simpa [allocproc, hrp] using hr
        exact .inr ⟨fun hxq => hnofork r (hxq ▸ hold), hold⟩
    intro r r' x hr hr'
    rcases hnew r x hr with ⟨rfl, rfl⟩ | ⟨hxq, hold⟩
    · rcases hnew r' x hr' with ⟨rfl, -⟩ | ⟨hxq, -⟩
      · rfl
      · exact absurd rfl hxq
    · rcases hnew r' x hr' with ⟨-, hxq'⟩ | ⟨-, hold'⟩
      · exact absurd hxq' hxq
      · exact h.once r r' x hold hold'
  · refine h.table.change hc hinit (by simp [hparent]) (.inr hnochild) (by simp [hstate]) ?_ ?_
    · intro _
      rw [hpid]
      exact Int.lt_succ s.nextpid
    · intro _ r _ hr
      rw [hpid]
      exact (h.table.fresh r hr).ne
  · exact h.sleepers.change hc (tstate_of_update (q := q) rfl (by simp))
      (pc_of_awake rfl (h.awake hpc (by simp))) (told_of_update rfl (by simp)) (by simp [hparent])
  · refine h.past.change hc hinit (.inr hnochild) (by simp [hstate]) (by simp [hstate])
      (fun _ _ hold => .inl hold) ?_ h.past.history
    intro _ pid c hold
    rw [hpid]
    exact (h.past.gone pid c hold).1.ne'

theorem Inv.forking (h : Inv s) (hpc : s.pc p = pc) (hforks : pc.forks = some q) :
    s.state p = .runnable ∧ s.state q = .embryo ∧ s.parent q = pc.gives p ∧ p ≠ q ∧
      q ≠ s.initproc ∧ (∀ x, s.parent x ≠ some q) ∧ ∀ r, r ≠ p → (s.pc r).forks ≠ some q := by
  subst hpc
  have hp : s.state p = .runnable := h.runnable (Pc.live_of_forks hforks)
  obtain ⟨hq, hgives⟩ := (h.at' p).forks q hforks
  refine ⟨hp, hq, hgives, ?_, ?_, ?_, ?_⟩
  · rintro rfl
    cases hq.symm.trans hp
  · rintro rfl
    cases hq.symm.trans h.table.initAlive
  · intro x hx
    cases hq.symm.trans (h.table.parent q x hx).1
  · intro r hr hfork
    exact hr (h.once r p q hfork hforks)

theorem inv_setParent (h : Inv s) (hpc : s.pc p = .setParent q) :
    Inv (setParent s p q) := by
  obtain ⟨hp, hq, -, hpq, hinit, hnochild, hnofork⟩ := h.forking hpc rfl
  have hc : Changes s (setParent s p q) q := .of_update rfl rfl le_rfl fun _ he => he
  have hstate : (setParent s p q).state q = .embryo := by
    rw [← hq]
    simp [setParent, State.state]
  have hpid : (setParent s p q).pid q = s.pid q := by
    simp [setParent]
  have hparent : (setParent s p q).parent q = some p := by
    simp [setParent, State.parent]
  have hawake := h.awake hpc (by simp)
  obtain ⟨hfresh, hpids, hgone⟩ := h.pid_kept hc (by simp [hq]) hpid
  refine ⟨h.lock.keep hpc .rfl, ?_, ?_, ?_, ?_, ?_⟩
  · refine h.at_others hc rfl ?_ hnofork ?_ ?_
    · refine .calm (by simp) (iff_of_true trivial ((hc.state p hpq).trans hp)) ?_
        fun _ _ hpassed => hpassed.elim
      rintro x ⟨⟩
      exact ⟨hstate, hparent⟩
    · intro _
      exact ⟨by simp [hstate, hq], h.not_exited (by simp [hq]), h.not_leaves (.inr hq)⟩
    · intro r hr hrparent
      rw [hparent] at hrparent
      exact absurd (Option.some.inj hrparent).symm hr
  · exact once_of_update h rfl (.inr (by rw [hpc]; rfl))
  · refine h.table.change hc hinit ?_ (.inr hnochild) (by simp [hstate]) (fun _ => hfresh)
      fun _ => hpids
    intro r hr
    rw [hparent] at hr
    obtain rfl := Option.some.inj hr
    exact ⟨hpq, hp, by simp [hstate]⟩
  · have hkeep : ∀ r, (setParent s p q).tstate r = .sleeping → s.tstate r = .sleeping ∧
        ((setParent s p q).proc r).chan = (s.proc r).chan :=
      tstate_of_update (q := q) rfl fun hsleep => ⟨hsleep, rfl⟩
    refine h.sleepers.change hc hkeep (pc_of_awake rfl hawake) (told_of_update rfl (by simp)) ?_
    intro r hr hrparent
    rw [hparent] at hrparent
    obtain rfl := Option.some.inj hrparent
    exact absurd (hkeep p hr).1 hawake
  · exact h.past.change hc hinit (.inl hpid) (by simp [hstate]) (by simp [hstate])
      (fun _ _ hold => .inl hold) (fun _ => hgone) h.past.history

theorem inv_forkFailed (h : Inv s) (hpc : s.pc p = .copyuvm q) :
    Inv (forkFailed s p q) := by
  obtain ⟨hp, hq, hnone, hpq, hinit, hnochild, hnofork⟩ := h.forking hpc rfl
  have hc : Changes s (forkFailed s p q) q := .of_update rfl rfl le_rfl fun _ he => he
  have hstate : (forkFailed s p q).state q = .unused := by
    simp [forkFailed, State.state]
  have hparent : (forkFailed s p q).parent q = none := by
    rw [← show s.parent q = none from hnone]
    simp [forkFailed, State.parent]
  refine ⟨h.lock.keep hpc .rfl, ?_, ?_, ?_, ?_, ?_⟩
  · refine h.at_others hc rfl ?_ hnofork ?_ (by simp [hparent])
    · exact .calm (by simp) (iff_of_true trivial ((hc.state p hpq).trans hp)) (by simp [Pc.forks])
        fun _ _ hpassed => hpassed.elim
    · intro _
      exact ⟨by simp [hstate, hq], h.not_exited (by simp [hq]), h.not_leaves (.inr hq)⟩
  · exact once_of_update h rfl (.inl rfl)
  · exact h.table.change hc hinit (by simp [hparent]) (.inr hnochild) (by simp [hstate])
      (by simp [hstate]) (by simp [hstate])
  · exact h.sleepers.change hc (tstate_of_update (q := q) rfl (by simp))
      (pc_of_awake rfl (h.awake hpc (by simp))) (told_of_update rfl (by simp)) (by simp [hparent])
  · exact h.past.change hc hinit (.inr hnochild) (by simp [hstate]) (by simp [hstate])
      (fun _ _ hold => .inl hold) (by simp [hstate]) h.past.history

theorem inv_forkDone (h : Inv s) (hpc : s.pc p = .forkDone q) :
    Inv (forkDone s p q) := by
  obtain ⟨hp, hq, hgives, hpq, hinit, hnochild, hnofork⟩ := h.forking hpc rfl
  have hc : Changes s (forkDone s p q) q :=
    .of_update rfl rfl le_rfl fun _ he => List.mem_cons_of_mem _ he
  have hstate : (forkDone s p q).state q = .runnable := by
    simp [forkDone, State.state]
  have hpid : (forkDone s p q).pid q = s.pid q := by
    simp [forkDone]
  have hparent : (forkDone s p q).parent q = some p := by
    rw [← show s.parent q = some p from hgives]
    simp [forkDone, State.parent]
  have hpcp : (forkDone s p q).pc p = .user (some (s.pid q)) := by
    simp [forkDone]
  have hpcq : (forkDone s p q).pc q = .user none := by
    simp [forkDone, Ne.symm hpq]
  have hpcr : ∀ r, r ≠ p → r ≠ q → (forkDone s p q).pc r = s.pc r := fun r hrp hrq => by
    simp [forkDone, hrp, hrq]
  have hqgone : s.pc q = .gone := by
    have hlive : ¬ (s.pc q).live := fun hlive => by cases hq.symm.trans (h.runnable hlive)
    exact Pc.gone_of_not_live hlive (h.not_exited (by simp [hq]))
  obtain ⟨hfresh, hpids, hgone⟩ := h.pid_kept hc (by simp [hq]) hpid
  refine ⟨?_, ?_, ?_, ?_, ?_, ?_⟩
  · refine (h.lock.keep (i := q) (v := .user none) rfl (by simp [hqgone])).keep rfl ?_
    simp [hpc, hpq]
  · intro r
    by_cases hrp : r = p
    · subst hrp
      rw [hpcp]
      exact .calm (by simp) (iff_of_true trivial ((hc.state r hpq).trans hp)) (by simp [Pc.forks])
        fun _ _ hpassed => hpassed.elim
    · by_cases hrq : r = q
      · subst hrq
        rw [hpcq]
        exact .calm (by simp) (iff_of_true trivial hstate) (by simp [Pc.forks])
          fun _ _ hpassed => hpassed.elim
      · rw [hpcr r hrp hrq]
        refine (h.at' r).change hc (hnofork r hrp) (fun heq => absurd heq hrq) ?_
        intro hrparent
        rw [hparent] at hrparent
        exact absurd (Option.some.inj hrparent).symm hrp
  · have hold : ∀ r x, ((forkDone s p q).pc r).forks = some x → (s.pc r).forks = some x := by
      intro r x hr
      by_cases hrp : r = p
      · rw [hrp, hpcp] at hr
        cases hr
      · by_cases hrq : r = q
        · rw [hrq, hpcq] at hr
          cases hr
        · rwa [hpcr r hrp hrq] at hr
    intro r r' x hr hr'
    exact h.once r r' x (hold r x hr) (hold r' x hr')
  · refine h.table.change hc hinit ?_ (.inl hstate) (fun _ => ⟨p, hparent⟩) (fun _ => hfresh)
      fun _ => hpids
    intro r hr
    rw [hparent] at hr
    obtain rfl := Option.some.inj hr
    exact ⟨hpq, hp, by simp [hstate]⟩
  · refine h.sleepers.change hc (tstate_of_update (q := q) rfl (by simp)) ?_ ?_ ?_
    · intro r hr
      refine hpcr r ?_ ?_
      · rintro rfl
        exact h.awake hpc (by simp) hr
      · rintro rfl
        exact h.awake hqgone (by simp) hr
    · intro r hr
      by_cases hrp : r = p
      · rw [hrp, hpcp] at hr
        exact hr.elim
      · by_cases hrq : r = q
        · rw [hrq, hpcq] at hr
          exact hr.elim
        · rwa [hpcr r hrp hrq] at hr
    · intro r _ _
      rw [hpcq, hstate]
      exact ⟨by simp, by simp⟩
  · refine h.past.change hc hinit (.inl hpid) ?_ (by simp [hstate]) ?_ ?_ h.past.history
    · intro _
      refine ⟨s.pid p, ?_, .inl ⟨p, hparent, hc.pid p hpq⟩⟩
      rw [hpid]
      exact List.mem_cons_self
    · intro pid c hmem
      exact .inl ((List.mem_cons.mp hmem).resolve_left (by simp))
    · exact fun _ => hgone

/-! ### `exit` -/

theorem inv_exitLock (h : Inv s) (hpc : s.pc p = .exit)
    (hfree : s.lock = none) :
    Inv (({ s with lock := some p }.log (.exited (s.proc p).pid)).goto p .exitWake) := by
  have hold := h.at' p
  rw [hpc] at hold
  have hs : Same s (({ s with lock := some p }.log (.exited (s.proc p).pid)).goto p .exitWake) :=
    .of_eq rfl rfl rfl (.inr ⟨_, rfl⟩)
  have hcongr := hold.congr hs
  refine h.same hs rfl (h.lock.acquire hfree trivial) ?_ (.inl rfl)
    (h.sleepers.step hs rfl (fun _ hr => ⟨hr, rfl⟩) ?_ fun htold => htold.elim)
  · exact ⟨hcongr.live, fun hp => absurd trivial (hcongr.init hp), by simp, by simp [Pc.forks],
      fun _ _ => trivial, fun _ _ hpassed => hpassed.elim, fun _ => List.mem_cons_self⟩
  · exact fun hp => absurd hp (h.awake hpc (by simp))

theorem wakeup1_same (s : State) (chan : Option Id) : Same s (wakeup1 s chan) := by
  refine ⟨fun p => ?_, fun p => ?_, fun p => ?_, rfl, rfl, .inl rfl⟩
  all_goals
    simp only [State.state, State.pid, State.parent, wakeup1]
    split <;> rfl

theorem tstate_of_wakeup1 {chan : Option Id} (hr : (wakeup1 s chan).tstate r = .sleeping) :
    s.tstate r = .sleeping ∧ ((wakeup1 s chan).proc r).chan = (s.proc r).chan ∧
      (chan.isSome → (s.proc r).chan ≠ chan) := by
  simp only [State.tstate, wakeup1] at hr ⊢
  split at hr
  · cases hr
  · rename_i hnot
    rw [if_neg hnot]
    exact ⟨hr, rfl, fun hsome hchan => hnot ⟨hr, hchan, hsome⟩⟩

theorem inv_exitWake (h : Inv s) (hpc : s.pc p = .exitWake) :
    Inv ((wakeup1 s (s.proc p).parent).goto p (.exitScan (List.finRange nproc))) := by
  have hold := h.at' p
  rw [hpc] at hold
  have hwoken := wakeup1_same s (s.proc p).parent
  have hs : Same s ((wakeup1 s (s.proc p).parent).goto p (.exitScan (List.finRange nproc))) :=
    ⟨hwoken.state, hwoken.pid, hwoken.parent, rfl, rfl, .inl rfl⟩
  have hcongr := hold.congr hs
  refine h.same hs rfl (h.lock.keep hpc .rfl) ?_ (.inl rfl) (h.sleepers.step hs rfl ?_ ?_ ?_)
  · exact ⟨hcongr.live, fun hp => absurd trivial (hcongr.init hp), by simp, by simp [Pc.forks],
      fun q _ => List.mem_finRange q, fun _ _ hpassed => hpassed.elim, fun _ => hcongr.event
        trivial⟩
  · intro r hr
    obtain ⟨hsleep, hchan, -⟩ := tstate_of_wakeup1 hr
    exact ⟨hsleep, hchan⟩
  · exact fun hp => absurd (tstate_of_wakeup1 hp).1 (h.awake hpc (by simp))
  · intro _ r hparent hr
    obtain ⟨hsleep, -, hnot⟩ := tstate_of_wakeup1 hr
    have hsame : (s.proc p).parent = some r := hparent
    refine hnot (by rw [hsame]; rfl) ?_
    rw [hsame]
    exact (h.sleepers.asleep r hsleep).1

theorem Inv.only (h : Inv s) (hp : (s.pc p).locked) (hr : (s.pc r).locked) : r = p :=
  h.lock.same hr hp

theorem exitTurn_child (hq : s.parent q = some p) :
    Changes s (exitTurn s p q) q ∧ (exitTurn s p q).state q = s.state q ∧
      (exitTurn s p q).pid q = s.pid q ∧ (exitTurn s p q).parent q = some s.initproc ∧
      (exitTurn s p q).pc = s.pc ∧ (exitTurn s p q).lock = s.lock ∧
      (exitTurn s p q).events = s.events ∧
      ∀ r, (exitTurn s p q).tstate r = .sleeping → s.tstate r = .sleeping ∧
        ((exitTurn s p q).proc r).chan = (s.proc r).chan ∧
        (s.state q = .zombie → (s.proc r).chan ≠ some s.initproc) := by
  have hgiven : Changes s (s.setProc q { s.proc q with parent := some s.initproc }) q :=
    .of_update rfl rfl le_rfl fun _ he => he
  have hkeep : ∀ r, (s.setProc q { s.proc q with parent := some s.initproc }).tstate r = s.tstate r
    ∧
      ((s.setProc q { s.proc q with parent := some s.initproc }).proc r).chan =
        (s.proc r).chan := by
    intro r
    by_cases hrq : r = q <;> simp [hrq]
  have hq' : (s.proc q).parent = some p := hq
  simp only [exitTurn, hq', if_true]
  split
  · have hwoken := wakeup1_same (s.setProc q { s.proc q with parent := some s.initproc })
      (some s.initproc)
    refine ⟨⟨fun r hr => ?_, fun r hr => ?_, fun r hr => ?_, rfl, le_rfl, fun _ he => he⟩, ?_, ?_,
      ?_, rfl, rfl, rfl, ?_⟩
    · exact (hwoken.state r).trans (hgiven.state r hr)
    · exact (hwoken.pid r).trans (hgiven.pid r hr)
    · exact (hwoken.parent r).trans (hgiven.parent r hr)
    · exact (hwoken.state q).trans (by simp [State.state])
    · exact (hwoken.pid q).trans (by simp)
    · exact (hwoken.parent q).trans (by simp [State.parent])
    · intro r hr
      obtain ⟨hsleep, hchan, hnot⟩ := tstate_of_wakeup1 hr
      rw [(hkeep r).1] at hsleep
      rw [(hkeep r).2] at hchan hnot
      exact ⟨hsleep, hchan, fun _ => hnot rfl⟩
  · rename_i hstate
    refine ⟨hgiven, ?_, ?_, ?_, rfl, rfl, rfl, fun r hr => ?_⟩
    · simp [State.state]
    · simp
    · simp [State.parent]
    · exact ⟨(hkeep r).1 ▸ hr, (hkeep r).2, fun hz => absurd hz hstate⟩

theorem inv_exitTurn (h : Inv s) {rest : List Id} (hpc : s.pc p = .exitScan (q :: rest)) :
    Inv ((exitTurn s p q).goto p (.exitScan rest)) := by
  have hold := h.at' p
  rw [hpc] at hold
  have hp : s.state p = .runnable := hold.live.mp trivial
  have hpi : p ≠ s.initproc := fun heq => hold.init heq trivial
  have hlocked : (s.pc p).locked := by rw [hpc]; trivial
  have hawake := h.awake hpc (by simp)
  by_cases hq : s.parent q = some p
  · -- the child is passed to init, whose wait is not between its scan and its sleep
    obtain ⟨hc', hstate, hpid, hparent, hpcs, hlock, hevents, htstate⟩ := exitTurn_child hq
    have hqp : q ≠ p := by
      rintro rfl
      exact h.table.self q hq
    have hqi : q ≠ s.initproc := by
      rintro rfl
      cases h.table.initParent.symm.trans hq
    have hused := (h.table.parent p q hq).2
    have hc : Changes s ((exitTurn s p q).goto p (.exitScan rest)) q :=
      ⟨hc'.state, hc'.pid, hc'.parent, hc'.initproc, hc'.nextpid, hc'.events⟩
    have hpc' : ((exitTurn s p q).goto p (.exitScan rest)).pc =
        update s.pc p (.exitScan rest) := by
      rw [State.goto, hpcs]
    have hstate' : ((exitTurn s p q).goto p (.exitScan rest)).state q = s.state q := hstate
    obtain ⟨hfresh, hpids, hgone⟩ := h.pid_kept hc hused hpid
    have hnofork : ∀ r, (s.pc r).forks ≠ some q := by
      intro r hr
      have hgives := ((h.at' r).forks q hr).2
      rw [hq] at hgives
      rw [← Pc.eq_of_gives hgives.symm, hpc] at hr
      cases hr
    have hlineage : s.state q ≠ .unused ∧ s.state q ≠ .embryo →
        Lineage ((exitTurn s p q).goto p (.exitScan rest)) q := by
      intro hlive
      obtain ⟨pid, hforked, hcases⟩ := h.past.lineage q hqi hlive
      refine ⟨pid, ?_, .inr ⟨hparent.trans (by rw [hc.initproc]), ?_⟩⟩
      · rw [show ((exitTurn s p q).goto p (.exitScan rest)).pid q = s.pid q from hpid]
        exact hc.events _ hforked
      · rcases hcases with ⟨r, hr, rfl⟩ | ⟨-, hexited⟩
        · obtain rfl := Option.some.inj (hq.symm.trans hr)
          exact hc.events _ (hold.event trivial)
        · exact hc.events _ hexited
    refine ⟨?_, h.at_others hc hpc' ?_ (fun r _ => hnofork r) ?_ ?_,
      once_of_update h hpc' (.inl rfl), ?_, ?_, ?_⟩
    · rw [hpc', State.goto, hlock]
      exact h.lock.keep hpc .rfl
    · refine ⟨?_, fun heq => absurd (heq.trans hc.initproc) hpi, by simp, by simp [Pc.forks], ?_,
        fun _ _ hpassed => hpassed.elim, fun _ => ?_⟩
      · rw [hc.state p (Ne.symm hqp), hp]
        exact ⟨fun _ => rfl, fun _ => trivial⟩
      · intro x hx
        have hxq : x ≠ q := by
          rintro rfl
          have hsame := Option.some.inj (hparent.symm.trans hx)
          exact hpi hsame.symm
        rw [hc.parent x hxq] at hx
        exact (List.mem_cons.mp (hold.keeps x hx)).resolve_left hxq
      · rw [hc.pid p (Ne.symm hqp)]
        exact hc.events _ (hold.event trivial)
    · intro _
      have hnot : ¬ (s.pc q).locked := fun hlockedq => hqp (h.only hlocked hlockedq)
      exact ⟨by rw [hstate'], fun hexited => hnot (by rw [hexited]; trivial),
        fun hleaves => hnot (Pc.locked_of_leaves hleaves)⟩
    · intro r hr hrparent
      obtain rfl : s.initproc = r := Option.some.inj (hparent.symm.trans hrparent)
      refine ⟨Pc.keeps_of_not_exits ((h.at' s.initproc).init rfl), fun hpassed => ?_⟩
      exact absurd (h.only hlocked (Pc.locked_of_passed hpassed)) hr
    · refine h.table.change hc hqi ?_ ?_ (fun _ => ⟨_, hparent⟩) (fun _ => hfresh) fun _ => hpids
      · intro r hr
        obtain rfl : s.initproc = r := Option.some.inj (hparent.symm.trans hr)
        exact ⟨Ne.symm hqi, h.table.initAlive, by rw [hstate']; exact hused⟩
      · rw [hstate']
        by_cases hrunnable : s.state q = .runnable
        · exact .inl hrunnable
        · exact .inr fun x hx => hrunnable (h.table.parent q x hx).1
    · refine h.sleepers.change hc ?_ (pc_of_awake hpc' hawake)
        (told_of_update hpc' (by simp [hpc])) ?_
      · intro r hr
        obtain ⟨hsleep, hchan, -⟩ := htstate r hr
        exact ⟨hsleep, hchan⟩
      · intro r hr hrparent
        obtain rfl : s.initproc = r := Option.some.inj (hparent.symm.trans hrparent)
        obtain ⟨hsleep, -, hnot⟩ := htstate _ hr
        refine ⟨fun hzombie => ?_, fun htold => ?_⟩
        · exact hnot (hstate.symm.trans hzombie) (h.sleepers.asleep _ hsleep).1
        · rw [hpc', update_of_ne hqp] at htold
          exact hqp (h.only hlocked (Pc.locked_of_told htold))
    · refine h.past.change hc hqi (.inl hpid) (by rw [hstate']; exact hlineage) ?_ ?_
        (fun _ => hgone) ?_
      · intro hzombie
        rw [show ((exitTurn s p q).goto p (.exitScan rest)).pid q = s.pid q from hpid]
        exact hc.events _ (h.past.zombie q (hstate'.symm.trans hzombie))
      · intro pid c hmem
        rw [State.goto, hevents] at hmem
        exact .inl hmem
      · rw [State.goto, hevents]
        exact h.past.history
  · have hsame : exitTurn s p q = s := if_neg hq
    rw [hsame]
    refine h.walk rfl rfl rfl rfl rfl (h.lock.keep hpc .rfl) ?_ (.inl rfl) (.inl hawake)
      (by simp [hpc])
    refine ⟨hold.live, fun heq => absurd heq hpi, by simp, by simp [Pc.forks], ?_,
      fun _ _ hpassed => hpassed.elim, fun _ => hold.event trivial⟩
    intro x hx
    refine (List.mem_cons.mp (hold.keeps x hx)).resolve_left ?_
    rintro rfl
    exact hq hx

theorem inv_exitMark (h : Inv s) (hpc : s.pc p = .exitMark) :
    Inv (exitMark s p) := by
  have hold := h.at' p
  rw [hpc] at hold
  have hp : s.state p = .runnable := hold.live.mp trivial
  have hpi : p ≠ s.initproc := fun heq => hold.init heq trivial
  have hlocked : (s.pc p).locked := by rw [hpc]; trivial
  have hnochild : ∀ x, s.parent x ≠ some p := fun x hx => hold.keeps x hx
  have hc : Changes s (exitMark s p) p := .of_update rfl rfl le_rfl fun _ he => he
  have hstate : (exitMark s p).state p = .zombie := by
    simp [exitMark, State.state]
  have hpid : (exitMark s p).pid p = s.pid p := by
    simp [exitMark]
  have hparent : (exitMark s p).parent p = s.parent p := by
    simp [exitMark, State.parent]
  obtain ⟨hfresh, hpids, hgone⟩ := h.pid_kept hc (by simp [hp]) hpid
  refine ⟨h.lock.keep hpc .rfl, h.at_others hc rfl ?_ ?_ (fun hne => absurd rfl hne) ?_,
    once_of_update h rfl (.inl rfl), ?_, ?_, ?_⟩
  · refine ⟨?_, fun heq => absurd heq hpi, fun _ => hstate, by simp [Pc.forks], fun _ _ => trivial,
      fun _ _ hpassed => hpassed.elim, fun _ => ?_⟩
    · rw [hstate]
      exact ⟨fun hlive => hlive.elim, fun heq => by cases heq⟩
    · rw [hpid]
      exact hc.events _ (hold.event trivial)
  · intro r _ hr
    cases ((h.at' r).forks p hr).1.symm.trans hp
  · intro r hr hrparent
    rw [hparent] at hrparent
    refine ⟨(h.at' r).keeps p hrparent, fun hpassed => ?_⟩
    exact absurd (h.only hlocked (Pc.locked_of_passed hpassed)) hr
  · refine h.table.change hc hpi ?_ (.inr hnochild) ?_ (fun _ => hfresh) fun _ => hpids
    · intro r hr
      rw [hparent] at hr
      refine ⟨?_, (h.table.parent r p hr).1, by simp [hstate]⟩
      rintro rfl
      exact h.table.self r hr
    · intro _
      rw [hparent]
      exact h.table.orphan p hpi ⟨by simp [hp], by simp [hp]⟩
  · have hkeep : ∀ r, (exitMark s p).tstate r = .sleeping → s.tstate r = .sleeping ∧
        ((exitMark s p).proc r).chan = (s.proc r).chan :=
      tstate_of_update (q := p) rfl (by simp)
    refine h.sleepers.change hc hkeep (pc_of_awake rfl (h.awake hpc (by simp)))
      (told_of_update rfl (by simp)) ?_
    intro r hr hrparent
    rw [hparent] at hrparent
    exact absurd (by rw [hpc]; trivial) (h.sleepers.quiet r p (hkeep r hr).1 hrparent).2
  · refine h.past.change hc hpi (.inl hpid) ?_ ?_ (fun _ _ hmem => .inl hmem) (fun _ => hgone)
      h.past.history
    · intro _
      obtain ⟨pid, hforked, hcases⟩ := h.past.lineage p hpi ⟨by simp [hp], by simp [hp]⟩
      refine ⟨pid, by rw [hpid]; exact hforked, hcases.imp ?_ ?_⟩
      · rintro ⟨r, hr, hrpid⟩
        refine ⟨r, by rwa [hparent], ?_⟩
        have hrp : r ≠ p := by
          rintro rfl
          exact h.table.self r hr
        rwa [hc.pid r hrp]
      · rintro ⟨hr, hexited⟩
        exact ⟨by rwa [hparent], hexited⟩
    · intro _
      rw [hpid]
      exact hold.event trivial

/-! ### `wait` -/

theorem inv_waitReap (h : Inv s) {rest : List Id} {havekids : Bool}
    (hpc : s.pc p = .waitScan (q :: rest) havekids)
    (hparent : s.parent q = some p) (hzombie : s.state q = .zombie) : Inv (waitReap s p q) := by
  have hold := h.at' p
  rw [hpc] at hold
  have hp : s.state p = .runnable := hold.live.mp trivial
  have hlocked : (s.pc p).locked := by rw [hpc]; trivial
  have hpq : p ≠ q := by
    rintro rfl
    cases hzombie.symm.trans hp
  have hqi : q ≠ s.initproc := by
    rintro rfl
    cases hzombie.symm.trans h.table.initAlive
  have hnochild : ∀ x, s.parent x ≠ some q := fun x hx => by
    cases hzombie.symm.trans (h.table.parent q x hx).1
  have hc : Changes s (waitReap s p q) q :=
    .of_update rfl rfl le_rfl fun _ he => List.mem_cons_of_mem _ he
  have hstate : (waitReap s p q).state q = .unused := by
    simp [waitReap, State.state]
  have hparent' : (waitReap s p q).parent q = none := by
    simp [waitReap, State.parent]
  refine ⟨h.lock.release rfl hlocked (by simp),
    h.at_others hc rfl ?_ ?_ ?_ (by simp [hparent']), once_of_update h rfl (.inl rfl), ?_, ?_, ?_⟩
  · exact .calm (by simp) (iff_of_true trivial ((hc.state p hpq).trans hp)) (by simp [Pc.forks])
      fun _ _ hpassed => hpassed.elim
  · intro r _ hr
    cases ((h.at' r).forks q hr).1.symm.trans hzombie
  · intro _
    have hnot : ¬ (s.pc q).locked := fun hq => hpq (h.only hlocked hq).symm
    exact ⟨by simp [hstate, hzombie], fun hexited => hnot (by rw [hexited]; trivial),
      fun hleaves => hnot (Pc.locked_of_leaves hleaves)⟩
  · exact h.table.change hc hqi (by simp [hparent']) (.inr hnochild) (by simp [hstate])
      (by simp [hstate]) (by simp [hstate])
  · exact h.sleepers.change hc (tstate_of_update (q := q) rfl fun hsleep => ⟨hsleep, rfl⟩)
      (pc_of_awake rfl (h.awake hpc (by simp))) (told_of_update rfl (by simp)) (by simp [hparent'])
  · have hfresh := h.table.fresh q (by simp [hzombie])
    refine h.past.change hc hqi (.inr hnochild) (by simp [hstate]) (by simp [hstate]) ?_
      (by simp [hstate]) ⟨⟨h.past.zombie q hzombie, ?_, ?_⟩, h.past.history⟩
    · intro pid c hmem
      rcases List.mem_cons.mp hmem with heq | hmem'
      · obtain ⟨rfl, -⟩ := Event.waited.inj heq
        refine .inr ⟨hfresh, hstate, fun r hr hused hsame => ?_⟩
        exact hr (h.table.pids r q hused (by simp [hzombie]) hsame)
      · exact .inl hmem'
    · intro c hmem
      exact (h.past.gone _ c hmem).2 q (by simp [hzombie]) rfl
    · obtain ⟨pid, hforked, hcases⟩ := h.past.lineage q hqi ⟨by simp [hzombie], by simp [hzombie]⟩
      refine ⟨pid, hforked, ?_⟩
      rcases hcases with ⟨r, hr, rfl⟩ | ⟨hr, hexited⟩
      · obtain rfl := Option.some.inj (hparent.symm.trans hr)
        exact .inl rfl
      · obtain rfl := Option.some.inj (hparent.symm.trans hr)
        exact .inr ⟨h.past.initPid, hexited⟩

theorem inv_waitSleep (h : Inv s) (hpc : s.pc p = .waitSleep) : Inv (waitSleep s p) := by
  have hold := h.at' p
  rw [hpc] at hold
  have hlocked : (s.pc p).locked := by rw [hpc]; trivial
  have hs : Same s (waitSleep s p) := .of_update rfl rfl rfl rfl rfl rfl rfl
  have hcongr := hold.congr hs
  have hself : (waitSleep s p).tstate p = .sleeping ∧ ((waitSleep s p).proc p).chan = some p := by
    simp [waitSleep]
  have hother : ∀ r, r ≠ p → (waitSleep s p).tstate r = s.tstate r ∧
      ((waitSleep s p).proc r).chan = (s.proc r).chan ∧ (waitSleep s p).pc r = s.pc r := by
    intro r hr
    simp [waitSleep, hr]
  have hpc' : (waitSleep s p).pc p = .waitSched := by simp [waitSleep]
  refine h.same hs rfl (h.lock.keep hpc .rfl) ?_ (.inl rfl) ⟨?_, ?_⟩
  · exact .calm (by simp) hcongr.live (by simp [Pc.forks]) fun _ _ hpassed => hpassed.elim
  · intro r hr
    by_cases hrp : r = p
    · subst hrp
      exact ⟨hself.2, .inl hpc'⟩
    · obtain ⟨htstate, hchan, hrpc⟩ := hother r hrp
      rw [hchan, hrpc]
      exact h.sleepers.asleep r (htstate ▸ hr)
  · intro r x hr hx
    rw [hs.parent] at hx
    rw [hs.state]
    have htold : ((waitSleep s p).pc x).told → x ≠ p ∧ (s.pc x).told := by
      intro hxtold
      have hxp : x ≠ p := by
        rintro rfl
        rw [hpc'] at hxtold
        exact hxtold
      exact ⟨hxp, by rwa [(hother x hxp).2.2] at hxtold⟩
    by_cases hrp : r = p
    · subst hrp
      refine ⟨hold.passed x hx trivial, fun hxtold => ?_⟩
      obtain ⟨hxp, hxtold'⟩ := htold hxtold
      exact hxp (h.only hlocked (Pc.locked_of_told hxtold'))
    · obtain ⟨hzombie, hnot⟩ := h.sleepers.quiet r x ((hother r hrp).1 ▸ hr) hx
      exact ⟨hzombie, fun hxtold => hnot (htold hxtold).2⟩

theorem At.user (h : At s p pc) (hpc : pc.live) {ret : Option Int} : At s p (.user ret) :=
  .calm (by simp) (iff_of_true trivial (h.live.mp hpc)) (by simp [Pc.forks])
    fun _ _ hpassed => hpassed.elim

theorem inv_go (h : Inv s) (hstep : go s p (s.pc p) = some s') : Inv s' := by
  have hold := h.at' p
  generalize hpc : s.pc p = pc at hstep hold
  have hawake := h.awake hpc
  cases pc with
  | setParent q =>
    cases hstep
    exact inv_setParent h hpc
  | forkDone q =>
    obtain ⟨-, rfl⟩ := taken hstep
    exact inv_forkDone h hpc
  | exit =>
    obtain ⟨hfree, rfl⟩ := taken hstep
    exact inv_exitLock h hpc hfree
  | exitWake =>
    cases hstep
    exact inv_exitWake h hpc
  | exitScan rest =>
    cases rest with
    | cons q rest =>
      cases hstep
      exact inv_exitTurn h hpc
    | nil =>
      cases hstep
      refine h.walk rfl rfl rfl rfl rfl (h.lock.keep hpc .rfl) ?_ (.inl rfl)
        (.inl (hawake (by simp))) (by simp [hpc])
      exact ⟨hold.live, hold.init, by simp, by simp [Pc.forks],
        fun q hq => absurd (hold.keeps q hq) List.not_mem_nil, fun _ _ hpassed => hpassed.elim,
        hold.event⟩
  | exitMark =>
    cases hstep
    exact inv_exitMark h hpc
  | exited =>
    cases hstep
    have hzombie : s.state p = .zombie := hold.zombie rfl
    refine h.walk rfl rfl rfl rfl rfl (h.lock.release hpc trivial (by simp)) ?_ (.inl rfl)
      (.inl (hawake (by simp))) (fun htold => htold.elim)
    exact .calm (by simp) (iff_of_false id fun heq => by cases hzombie.symm.trans heq)
      (by simp [Pc.forks]) fun _ _ hpassed => hpassed.elim
  | wait =>
    obtain ⟨hfree, rfl⟩ := taken hstep
    refine h.walk rfl rfl rfl rfl rfl (h.lock.acquire hfree trivial) ?_ (.inl rfl)
      (.inl (hawake (by simp))) (fun htold => htold.elim)
    exact .calm (by simp) hold.live (by simp [Pc.forks])
      fun q _ hpassed => absurd (List.mem_finRange q) hpassed
  | waitScan rest havekids =>
    have hrunning := hawake (by simp)
    cases rest with
    | cons q rest =>
      have hnext : ∀ havekids', (s.parent q = some p → s.state q ≠ .zombie) →
          Inv (s.goto p (.waitScan rest havekids')) := by
        intro havekids' hq
        refine h.walk rfl rfl rfl rfl rfl (h.lock.keep hpc .rfl) ?_ (.inl rfl) (.inl hrunning)
          (fun htold => htold.elim)
        refine .calm (by simp) hold.live (by simp [Pc.forks]) fun x hx hpassed => ?_
        by_cases hxq : x = q
        · subst hxq
          exact hq hx
        · refine hold.passed x hx fun hmem => ?_
          exact (List.mem_cons.mp hmem).elim hxq hpassed
      simp only [go] at hstep
      split at hstep
      · rename_i hchild
        split at hstep
        · rename_i hzombie
          cases hstep
          exact inv_waitReap h hpc hchild hzombie
        · rename_i hzombie
          cases hstep
          exact hnext true fun _ => hzombie
      · rename_i hchild
        cases hstep
        exact hnext havekids fun hparent => absurd hparent hchild
    | nil =>
      simp only [go] at hstep
      split at hstep
      · cases hstep
        exact h.walk rfl rfl rfl rfl rfl
          (h.lock.release hpc trivial (by simp)) (hold.user trivial) (.inl rfl)
          (.inl hrunning) (fun htold => htold.elim)
      · cases hstep
        refine h.walk rfl rfl rfl rfl rfl (h.lock.keep hpc .rfl) ?_ (.inl rfl) (.inl hrunning)
          (fun htold => htold.elim)
        exact .calm (by simp) hold.live (by simp [Pc.forks])
          fun q hq _ => hold.passed q hq List.not_mem_nil
  | waitSleep =>
    cases hstep
    exact inv_waitSleep h hpc
  | waitSched =>
    cases hstep
    refine h.walk rfl rfl rfl rfl rfl (h.lock.release hpc trivial (by simp)) ?_ (.inl rfl)
      (.inr rfl) (fun htold => htold.elim)
    exact .calm (by simp) hold.live (by simp [Pc.forks]) fun _ _ hpassed => hpassed.elim
  | gone | user ret | allocproc | kalloc q | copyuvm q | waiting | panic => cases hstep

theorem inv_tstate (h : Inv s) (hstate : proc.state = s.state q)
    (hpid : proc.pid = s.pid q) (hparent : proc.parent = s.parent q)
    (htstate : proc.tstate = .sleeping → s.tstate q = .sleeping ∧ proc.chan = (s.proc q).chan) :
    Inv (s.setProc q proc) := by
  have hs : Same s (s.setProc q proc) := .of_update rfl hstate hpid hparent rfl rfl rfl
  have hpc : (s.setProc q proc).pc = update s.pc q (s.pc q) :=
    (update_eq_self q s.pc).symm
  have hkeep : ∀ r, (s.setProc q proc).tstate r = .sleeping → s.tstate r = .sleeping ∧
      ((s.setProc q proc).proc r).chan = (s.proc r).chan :=
    tstate_of_update (q := q) rfl htstate
  refine h.same hs hpc (h.lock.keep rfl .rfl) ((h.at' q).congr hs) (.inr rfl)
    (h.sleepers.step hs hpc hkeep ?_ ?_)
  · intro hq
    exact (h.sleepers.asleep q (hkeep q hq).1).2
  · intro htold r hr hsleep
    exact (h.sleepers.quiet r q (hkeep r hsleep).1 hr).2 htold

theorem Inv.goto (h : Inv s) (hawake : s.tstate p ≠ .sleeping) (hat : At s p pc)
    (hold : ¬ (s.pc p).locked) (hnew : ¬ pc.locked)
    (hforks : pc.forks = none ∨ pc.forks = (s.pc p).forks) : Inv (s.goto p pc) := by
  exact h.walk rfl rfl rfl rfl rfl (h.lock.keep rfl (iff_of_false hnew hold)) hat hforks
    (.inl hawake) fun htold => absurd (Pc.locked_of_told htold) hnew

theorem inv_call (h : Inv s) {ret : Option Int} (hpc : s.pc p = .user ret) (call : Call) :
    Inv (s.goto p (call.entry p s.initproc)) := by
  have hold := h.at' p
  rw [hpc] at hold
  have hlive := hold.live.mp trivial
  have hentry : ∀ pc : Pc, pc.live → (p = s.initproc → ¬ pc.exits) → pc ≠ .exited →
      pc.forks = none → ¬ pc.locked → Inv (s.goto p pc) := by
    intro pc hpclive hinit hexited hforks hlocked
    refine h.goto (h.awake hpc (by simp)) ?_ (by simp [hpc]) hlocked (.inl hforks)
    refine ⟨iff_of_true hpclive hlive, hinit, fun heq => absurd heq hexited, by simp [hforks], ?_,
      ?_, fun hleaves => absurd (Pc.locked_of_leaves hleaves) hlocked⟩
    · intro q _
      cases pc <;> trivial
    · intro q _ hpassed
      exact absurd (Pc.locked_of_passed hpassed) hlocked
  cases call with
  | fork | cowFork | wait | cowWait =>
    exact hentry _ trivial (fun _ => by simp [Call.entry]) (by simp [Call.entry]) rfl
      (by simp [Call.entry])
  | exit =>
    simp only [Call.entry]
    split
    · exact hentry _ trivial (fun _ => by simp) (by simp) rfl (by simp)
    · rename_i hp
      exact hentry _ trivial (fun heq => absurd heq hp) (by simp) rfl (by simp)

theorem inv_kill (h : Inv s) (pid : Int) : Inv (kill s pid) := by
  unfold kill
  split
  · exact h
  · exact inv_tstate h rfl rfl rfl fun hsleep => ⟨hsleep, rfl⟩

theorem inv_running {a : Act} (h : Inv s) (hstep : running s p a = some s') : Inv s' := by
  have hold := h.at' p
  cases a with
  | call p' call =>
    simp only [running] at hstep
    split at hstep
    · rename_i ret hpc
      cases hstep
      exact inv_call h hpc call
    · cases hstep
  | go p' => exact inv_go h hstep
  | alloc p' found =>
    obtain ⟨⟨hpc, -⟩, hnext⟩ := Option.ite_none_right_eq_some.mp hstep
    have hawake := h.awake hpc (by simp)
    rw [hpc] at hold
    cases found with
    | none =>
      cases hnext
      exact h.goto hawake (hold.user trivial) (by simp [hpc]) (by simp)
        (.inl rfl)
    | some q =>
      obtain ⟨hq, hnext'⟩ := Option.ite_none_right_eq_some.mp hnext
      cases hnext'
      exact inv_alloc h hpc hq
  | kalloc p' ok =>
    simp only [running] at hstep
    split at hstep
    · rename_i q hpc
      have hawake := h.awake hpc (by simp)
      rw [hpc] at hold
      split at hstep
      · cases hstep
        -- the state of the new thread, then the caller
        have hmade : Inv (s.setProc q { s.proc q with tstate := .embryo }) :=
          inv_tstate h rfl rfl rfl fun hsleep => by cases hsleep
        have hs : Same s (s.setProc q { s.proc q with tstate := .embryo }) :=
          .of_update rfl rfl rfl rfl rfl rfl rfl
        have hpq : p ≠ q := (h.forking hpc rfl).2.2.2.1
        refine hmade.goto ?_ (At.congr ?_ hs) (by simp [hpc])
          (by simp) (.inr (by simp [hpc, Pc.forks]))
        · simpa [hpq] using hawake
        · exact .calm (by simp) hold.live hold.forks fun _ _ hpassed => hpassed.elim
      · cases hstep
        exact h.goto hawake (hold.user trivial) (by simp [hpc]) (by simp)
          (.inl rfl)
    · cases hstep
  | copyuvm p' ok =>
    simp only [running] at hstep
    split at hstep
    · rename_i q hpc
      have hawake := h.awake hpc (by simp)
      rw [hpc] at hold
      split at hstep
      · cases hstep
        exact h.goto hawake (.calm (by simp) hold.live hold.forks fun _ _ hpassed => hpassed.elim)
          (by simp [hpc]) (by simp) (.inr (by simp [hpc, Pc.forks]))
      · cases hstep
        exact inv_forkFailed h hpc
    · cases hstep
  | kill p' pid =>
    obtain ⟨-, rfl⟩ := taken hstep
    exact inv_kill h pid
  | tick p' =>
    obtain ⟨-, rfl⟩ := taken hstep
    exact inv_tstate h rfl rfl rfl fun hsleep => by cases hsleep
  | pick p' => cases hstep

theorem inv_pick (h : Inv s) (hstep : pick s p = some s') : Inv s' := by
  obtain ⟨⟨-, hfree⟩, hnext⟩ := Option.ite_none_right_eq_some.mp hstep
  split at hnext
  · rename_i hpc
    cases hnext
    have hold := h.at' p
    rw [hpc] at hold
    have hwoken : Inv (s.setProc p { s.proc p with tstate := .running, chan := none }) :=
      inv_tstate h rfl rfl rfl fun hsleep => by cases hsleep
    have hs : Same s (s.setProc p { s.proc p with tstate := .running, chan := none }) :=
      .of_update rfl rfl rfl rfl rfl rfl rfl
    refine hwoken.walk rfl rfl rfl rfl rfl (hwoken.lock.acquire hfree trivial) (At.congr ?_ hs)
      (.inl rfl) (.inl (by simp)) (fun htold => htold.elim)
    exact .calm (by simp) hold.live (by simp [Pc.forks])
      fun q _ hpassed => absurd (List.mem_finRange q) hpassed
  · cases hnext
    exact inv_tstate h rfl rfl rfl fun hsleep => by cases hsleep

theorem inv_step {a : Act} (h : Inv s) (hstep : step s a = some s') : Inv s' := by
  cases a with
  | pick p => exact inv_pick h hstep
  | _ =>
    obtain ⟨-, hnext⟩ := Option.ite_none_right_eq_some.mp hstep
    exact inv_running h hnext

/-- What `fork`, `exit` and `wait` keep between them. -/
structure Orderly (s : State) : Prop where
  pids : ∀ p q, s.state p ≠ .unused → s.state q ≠ .unused → s.pid p = s.pid q → p = q
  parent : ∀ p, p ≠ s.initproc → s.state p ≠ .unused → s.state p ≠ .embryo →
    ∃ q, s.parent p = some q ∧ s.state q ≠ .unused
  childless : ∀ p, s.state p = .zombie → ∀ q, s.parent q ≠ some p
  reaped : History s.events
  awake : s.lock = none → ∀ p q, s.tstate p = .sleeping → s.parent q = some p →
    s.state q ≠ .zombie

/-- In every run: the pids in use are distinct, a process has a parent that is
there, a zombie has no children, each pid of an exited process is returned by at
most one `wait`, to its parent or after that one's exit to `init`, and while
`ptable.lock` is free nobody sleeps in `wait` with a zombie child. -/
theorem fork_exit_wait_orderly (labels : List Act) (final : State)
    (hrun : run step boot labels = some final) : Orderly final := by
  have hkeep : ∀ s a next, Inv s → True → step s a = some next → Inv next :=
    fun _ _ _ h _ hstep => inv_step h hstep
  have hinv : Inv final :=
    run_invariant hkeep inv_boot (meets_of_forall (fun _ _ _ => trivial) _) hrun
  refine ⟨hinv.table.pids, ?_, ?_, hinv.past.history, ?_⟩
  · intro p hp hused hmade
    obtain ⟨q, hq⟩ := hinv.table.orphan p hp ⟨hused, hmade⟩
    exact ⟨q, hq, by simp [(hinv.table.parent q p hq).1]⟩
  · intro p hzombie q hq
    cases hzombie.symm.trans (hinv.table.parent p q hq).1
  · intro _ p q hsleep hq
    exact (hinv.sleepers.quiet p q hsleep hq).1

def forks (p q : Id) : List Act :=
  [.call p .fork, .alloc p (some q), .kalloc p true, .copyuvm p true, .go p, .go p, .pick q]

def exits (p : Id) : List Act :=
  .call p .exit :: List.replicate 69 (.go p)

/-- `init` forks a process, which forks another and exits first; `init` waits
for both. -/
def orphaned : List Act :=
  .pick init :: forks init proc1 ++ forks proc1 proc2 ++ exits proc1 ++
    [.call init .wait, .go init, .go init, .go init] ++ exits proc2 ++
    [.call init .cowWait, .go init, .go init, .go init, .go init]

theorem fork_exit_wait_orderly_orphaned : ∃ final, run step boot orphaned = some final ∧
      final.events = [.waited 3 1, .exited 3, .waited 2 1, .exited 2, .forked 3 2, .forked 2 1] ∧
      Orderly final := by
  obtain ⟨final, hrun, hevents⟩ : ∃ final, run step boot orphaned = some final ∧
      final.events =
        [.waited 3 1, .exited 3, .waited 2 1, .exited 2, .forked 3 2, .forked 2 1] := by
    decide +kernel
  exact ⟨final, hrun, hevents, fork_exit_wait_orderly orphaned final hrun⟩

end Xv6.Family
