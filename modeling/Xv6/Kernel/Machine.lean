import Xv6.Basic
import Xv6.Lib.Transition
import Mathlib.Data.List.FinRange

/-! Processes and threads on several CPUs (`proc.c`, `kthread.c`, `trap.c` and
`wait_before_exec` of `exec.c`). A step is one access to data that another CPU
can reach without the locks that are held. What happens inside a section of the
right lock is one step together with the acquire before it. The bodies of the
other system calls are reduced to what they hold: locked buffers and inodes, and
a place in `log.outstanding`. -/
namespace Xv6.Kernel
open Function (update)

/-- A `struct thread`: its process and its place in `pthreads`. -/
abbrev Slot := Fin nproc × Fin nthread

/-- What `sleep` is called on: a process, a thread, or another kernel address. -/
inductive Chan where
  | proc (p : Fin nproc)
  | thread (x : Slot)
  | addr (a : Nat)
deriving DecidableEq

/-- The two callers of `allocthread`; `fork` reaches it through `allocproc`. -/
inductive Caller where
  | kthreadCreate
  | fork
deriving DecidableEq

inductive Mode where
  | syscall
  | exit
deriving DecidableEq

/-- Positions without a spinlock, where a timer interrupt can come in. -/
inductive Code where
  | user
  | work (mode : Mode)
  | allocproc
  | allocthread (p : Fin nproc) (caller : Caller)
  | kalloc (y : Slot) (caller : Caller)
  | created (y : Slot)
  | copyuvm (y : Slot)
  | copied (y : Slot)
  | wait
  | kthreadExit
  | kthreadJoin (id : Int)
  | rejoin (y : Slot) (id : Int)
  | waitBeforeExec
  | rescan
deriving DecidableEq

inductive Panic where
  | initExiting
  | zombieExit
  | waitAlive
  | waitKfree
  | joinUnused
  | joinKfree
  | execKfree
deriving DecidableEq

inductive Pc where
  | code (k : Code)
  | yielding (k : Code)
  | allocScan (p : Fin nproc) (rest : List (Fin nthread)) (caller : Caller)
  | allocTid (y : Slot) (tid : Int) (caller : Caller)
  | sleeping (chan : Chan) (k : Code)
  | waitScan
  | exited
  | kthreadExiting
  | joinFound (y : Slot) (id : Int)
  | joinUsed (y : Slot) (id : Int)
  | joinLoop (y : Slot) (id : Int)
  | joinSleep (y : Slot) (id : Int)
  | joinReap (y : Slot) (id : Int) (looped : Bool)
  | execScan (rest : List (Fin nthread)) (threadsAlive : Bool)
  | execReap (y : Slot) (rest : List (Fin nthread)) (threadsAlive : Bool)
  | execWake (y : Slot) (rest : List (Fin nthread))
  | execSleep
  | panic (why : Panic)
deriving DecidableEq

def Pc.table : Pc → Bool
  | .sleeping _ _ => true
  | .waitScan => true
  | .exited => true
  | .kthreadExiting => true
  | .panic .zombieExit => true
  | .panic .waitAlive => true
  | .panic .waitKfree => true
  | _ => false

inductive Resume where
  | forkret
  | yielded (k : Code)
  | slept (k : Code)
  | waiting
  | zombie
deriving DecidableEq

/-- `sched` returns with `ptable.lock` held, which `forkret`, `yield` and most
calls of `sleep` release. -/
def Resume.pc : Resume → Pc
  | .forkret => .code .user
  | .yielded k => .code k
  | .slept k => .code k
  | .waiting => .waitScan
  | .zombie => .panic .zombieExit

def Resume.clearsChan : Resume → Bool
  | .slept _ => true
  | .waiting => true
  | _ => false

/-- `struct context`, which lies on a kernel stack. -/
structure Context where
  stack : Nat
  resume : Resume

/-- `struct thread`; `maker` is the thread inside `allocthread` for it. -/
structure Thread where
  kstack : Nat
  state : ProcState
  tid : Int
  chan : Option Chan
  context : Context
  maker : Option Slot

/-- `struct proc` without its memory and files; `maker` is the thread inside
the `fork` that has taken the slot. -/
structure Proc where
  state : ProcState
  pid : Int
  parent : Option (Fin nproc)
  killed : Bool
  executed : Bool
  maker : Option Slot

/-- A CPU in `scheduler`, outside and inside its section of `ptable.lock`, or
running a thread on a kernel stack. -/
inductive Cpu where
  | idle
  | scheduling
  | run (x : Slot) (stack : Nat) (pc : Pc)
deriving DecidableEq

inductive Hold where
  | buf (b : Nat)
  | inode (i : Nat)
deriving DecidableEq

/-- A machine with `n` CPUs. `stackPages`, `created`, `terminated` and `joined` only
record: the pages that are kernel stacks, the threads that were created (with
the pid) or have died, and the `kthread_join` calls that returned 0. -/
structure State (n : Nat) where
  proc : Fin nproc → Proc
  thread : Slot → Thread
  initproc : Fin nproc
  nextpid : Int
  nexttid : Int
  ptlock : Option (Fin n)
  lock : Fin nproc → Option (Fin n)
  cpu : Fin n → Cpu
  busy : List (Hold × Slot)
  outstanding : List Slot
  stackPages : Nat → Option Slot
  created : List (Int × Int)
  terminated : List Int
  joined : List (Int × Int)

inductive Syscall where
  | other
  | fork
  | exit
  | wait
  | exec
  | kthreadCreate
  | kthreadExit
  | kthreadJoin (id : Int)

/-- What a CPU does next; `go` is the only step of most positions. -/
inductive Cmd where
  | go
  | pick (x : Slot)
  | wakeup (a : Nat)
  | tick
  | call (syscall : Syscall)
  | trap
  | fault
  | take (h : Hold)
  | drop (h : Hold)
  | beginOp
  | endOp
  | sleep (a : Nat)
  | kill (pid : Int)
  | ret
  | exit
  | kalloc (page : Nat)
  | copyuvm (ok : Bool)

structure Act (n : Nat) where
  cpu : Fin n
  cmd : Cmd

def ProcState.dead (state : ProcState) : Prop :=
  state = .unused ∨ state = .zombie

instance (state : ProcState) : Decidable (ProcState.dead state) :=
  inferInstanceAs (Decidable (_ ∨ _))

variable {n : Nat}

def State.setCpu (s : State n) (c : Fin n) (cpu : Cpu) : State n :=
  { s with cpu := update s.cpu c cpu }

def State.setThread (s : State n) (x : Slot) (t : Thread) : State n :=
  { s with thread := update s.thread x t }

def State.setProc (s : State n) (p : Fin nproc) (proc : Proc) : State n :=
  { s with proc := update s.proc p proc }

def State.setLock (s : State n) (p : Fin nproc) (owner : Option (Fin n)) : State n :=
  { s with lock := update s.lock p owner }

def State.setTable (s : State n) (owner : Option (Fin n)) : State n :=
  { s with ptlock := owner }

def State.setState (s : State n) (x : Slot) (state : ProcState) : State n :=
  s.setThread x { s.thread x with state := state }

def pthreads (p : Fin nproc) : List Slot :=
  (List.finRange nthread).map fun i => (p, i)

def wakeup1 (s : State n) (chan : Option Chan) : State n :=
  { s with
    thread := fun x =>
      if (s.thread x).state = .sleeping ∧ (s.thread x).chan = chan then
        { s.thread x with state := .runnable }
      else s.thread x }

/-- The loop runs on to `NPROC`. What lies there after the `NTHREAD` threads of
the process has no address of a thread at the place of `chan`. -/
def wakeup2 (s : State n) (p : Fin nproc) (chan : Option Chan) : State n :=
  { s with
    thread := fun x =>
      if x.1 = p ∧ (s.thread x).state = .sleeping ∧ (s.thread x).chan = chan then
        { s.thread x with state := .runnable }
      else s.thread x }

def sched (s : State n) (c : Fin n) (x : Slot) (stack : Nat) (resume : Resume) : State n :=
  (s.setThread x { s.thread x with context := ⟨stack, resume⟩ }).setCpu c .scheduling

def switchTo (s : State n) (c : Fin n) (x : Slot) : State n :=
  let t := s.thread x
  let resume := t.context.resume
  ((s.setThread x
      { t with state := .running, chan := if resume.clearsChan then none else t.chan }).setTable
    (if resume.pc.table then some c else none)).setCpu c (.run x t.context.stack resume.pc)

def enterExit (s : State n) (c : Fin n) (x : Slot) (stack : Nat) : State n :=
  if x.1 = s.initproc then s.setCpu c (.run x stack (.panic .initExiting))
  else s.setCpu c (.run x stack (.code (.work .exit)))

/-- `trap` sends a thread of a killed process, or of one in which `exec` was
called, to `exit`. -/
def trapExit (s : State n) (c : Fin n) (x : Slot) (stack : Nat) (next : Code) : State n :=
  if (s.proc x.1).killed || (s.proc x.1).executed then enterExit s c x stack
  else s.setCpu c (.run x stack (.code next))

/-- The thread holds no buffer and no inode and is not counted by the log. -/
def State.released (s : State n) (x : Slot) : Prop :=
  (∀ e ∈ s.busy, e.2 ≠ x) ∧ x ∉ s.outstanding

instance (s : State n) (x : Slot) : Decidable (s.released x) :=
  inferInstanceAs (Decidable (_ ∧ _))

def returnTo (s : State n) (c : Fin n) (x : Slot) (stack : Nat) : State n :=
  s.setCpu c (.run x stack (.code (.work .syscall)))

/-- `allocproc` takes an `UNUSED` process, under `ptable.lock`, and calls
`initlock`. -/
def allocprocAt (s : State n) (c : Fin n) (x : Slot) (stack : Nat) (p : Fin nproc) : State n :=
  (({ s with
      proc := update s.proc p
        { s.proc p with
          state := .embryo, pid := s.nextpid, executed := false, maker := some x }
      thread := fun y => if y.1 = p then { s.thread y with state := .unused } else s.thread y
      nextpid := s.nextpid + 1 } : State n).setLock p none).setCpu c
    (.run x stack (.code (.allocthread p .fork)))

def allocproc (s : State n) (c : Fin n) (x : Slot) (stack : Nat) : State n :=
  match (List.finRange nproc).find? fun p => (s.proc p).state = .unused with
  | none => returnTo s c x stack
  | some p => allocprocAt s c x stack p

def allocFailed (s : State n) (c : Fin n) (x : Slot) (stack : Nat) (p : Fin nproc) :
    Caller → State n
  | .kthreadCreate => returnTo s c x stack
  | .fork => returnTo (s.setProc p { s.proc p with maker := none }) c x stack

def allocFound (s : State n) (c : Fin n) (x : Slot) (stack : Nat) (y : Slot) (caller : Caller) :
    State n :=
  (s.setThread y { s.thread y with state := .embryo, maker := some x }).setCpu c
    (.run x stack (.allocTid y s.nexttid caller))

def allocScan (s : State n) (c : Fin n) (x : Slot) (stack : Nat) (p : Fin nproc)
    (caller : Caller) : List (Fin nthread) → State n
  | [] => allocFailed (s.setLock p none) c x stack p caller
  | i :: rest =>
    if (s.thread (p, i)).state = .unused then allocFound s c x stack (p, i) caller
    else s.setCpu c (.run x stack (.allocScan p rest caller))

/-- The second half of `t->tid = nexttid++`, which runs under `p->lock` only:
another process can have changed `nexttid` since it was read. -/
def allocTid (s : State n) (c : Fin n) (x : Slot) (stack : Nat) (y : Slot) (tid : Int)
    (caller : Caller) : State n :=
  ((({ s with nexttid := tid + 1 } : State n).setThread y
    { s.thread y with tid := tid }).setLock y.1 none).setCpu c
      (.run x stack (.code (.kalloc y caller)))

def Caller.next (y : Slot) : Caller → Code
  | .kthreadCreate => .created y
  | .fork => .copyuvm y

def stackReady (s : State n) (c : Fin n) (x : Slot) (stack : Nat) (y : Slot) (caller : Caller)
    (page : Nat) : State n :=
  (({ s with stackPages := update s.stackPages page (some y) } : State n).setThread y
    { s.thread y with kstack := page, context := ⟨page, .forkret⟩ }).setCpu c
      (.run x stack (.code (caller.next y)))

def stackFailed (s : State n) (c : Fin n) (x : Slot) (stack : Nat) (y : Slot) (caller : Caller) :
    State n :=
  allocFailed (s.setThread y { s.thread y with kstack := 0, state := .unused }) c x stack y.1 caller

/-- `kalloc` returns a free page, or 0. -/
def allocStack (s : State n) (c : Fin n) (x : Slot) (stack : Nat) (y : Slot) (caller : Caller)
    (page : Nat) : State n :=
  if page = 0 then stackFailed s c x stack y caller else stackReady s c x stack y caller page

def kthreadCreate (s : State n) (c : Fin n) (x : Slot) (stack : Nat) (y : Slot) : State n :=
  returnTo (({ s with
    created := ((s.thread y).tid, (s.proc x.1).pid) :: s.created } : State n).setState y .runnable)
    c x stack

def forkFailed (s : State n) (c : Fin n) (x : Slot) (stack : Nat) (y : Slot) : State n :=
  returnTo ((({ s with
    stackPages := update s.stackPages (s.thread y).kstack none } : State n).setThread y
      { s.thread y with kstack := 0, state := .unused }).setProc y.1
        { s.proc y.1 with state := .unused, maker := none }) c x stack

def forkDone (s : State n) (c : Fin n) (x : Slot) (stack : Nat) (y : Slot) : State n :=
  returnTo ((({ s with
    created := ((s.thread y).tid, (s.proc y.1).pid) :: s.created } : State n).setState y
      .runnable).setProc y.1 { s.proc y.1 with state := .runnable, maker := none }) c x stack

def exitMarks (s : State n) (p : Fin nproc) : List Slot :=
  (pthreads p).filter fun y => (s.thread y).state ≠ .unused

/-- `exit` under `ptable.lock`, up to the call of `sched`. -/
def exit (s : State n) (c : Fin n) (x : Slot) (stack : Nat) : State n :=
  let p := x.1
  let woken := wakeup1 s ((s.proc p).parent.map .proc)
  let children := fun q => (s.proc q).parent = some p
  let told := if ∃ q, children q ∧ (s.proc q).state = .zombie then
    wakeup1 woken (some (.proc s.initproc)) else woken
  ({ told with
      proc := update
        (fun q => if children q then { s.proc q with parent := some s.initproc } else s.proc q) p
        { s.proc p with state := .zombie }
      thread := fun y =>
        if y.1 = p ∧ (told.thread y).state ≠ .unused then
          { told.thread y with state := .zombie, chan := none }
        else told.thread y
      ptlock := some c
      terminated := (exitMarks s p).map (fun y => (s.thread y).tid) ++ s.terminated }
    : State n).setCpu c (.run x stack .exited)

def zombieChild (s : State n) (p : Fin nproc) : Option (Fin nproc) :=
  (List.finRange nproc).find? fun q => (s.proc q).parent = some p ∧ (s.proc q).state = .zombie

/-- The kernel stacks that `wait` frees for a zombie child. -/
def waitFrees (s : State n) (q : Fin nproc) : List Slot :=
  ((pthreads q).takeWhile fun y => ProcState.dead (s.thread y).state).filter
    fun y => (s.thread y).state = .zombie

/-- `wait` stops at a live thread and at one that never got a stack. -/
def waitStops (s : State n) (q : Fin nproc) : Option Slot :=
  (pthreads q).find? fun y => ¬ ProcState.dead (s.thread y).state ∨
    (s.thread y).state = .zombie ∧ (s.thread y).kstack = 0

/-- `wait` frees a zombie child. -/
def waitReap (s : State n) (c : Fin n) (x : Slot) (stack : Nat) (q : Fin nproc) : State n :=
  returnTo (({ s with
    thread := fun y => if y ∈ waitFrees s q then { s.thread y with kstack := 0 } else s.thread y
    stackPages := fun g =>
      if g ∈ (waitFrees s q).map (fun y => (s.thread y).kstack) then none else s.stackPages g
    ptlock := none } : State n).setProc q
      { s.proc q with state := .unused, pid := 0, parent := none, killed := false }) c x stack

def waitSleep (s : State n) (c : Fin n) (x : Slot) (stack : Nat) : State n :=
  sched ((s.setThread x
    { s.thread x with state := .sleeping, chan := some (.proc x.1) }).setTable (some c))
    c x stack .waiting

/-- The loop over the table in `wait` and `cow_wait`, with `ptable.lock` held. -/
def waitScan (s : State n) (c : Fin n) (x : Slot) (stack : Nat) : State n :=
  match zombieChild s x.1 with
  | some q =>
    match waitStops s q with
    | some y =>
      (s.setTable (some c)).setCpu c (.run x stack
        (.panic (if (s.thread y).state = .zombie then .waitKfree else .waitAlive)))
    | none => waitReap s c x stack q
  | none =>
    if (∀ q, (s.proc q).parent ≠ some x.1) ∨ (s.proc x.1).killed = true then
      returnTo (s.setTable none) c x stack
    else waitSleep s c x stack

/-- `kthread_exit` up to the store of `ZOMBIE`. -/
def kthreadExit (s : State n) (c : Fin n) (x : Slot) (stack : Nat) : State n :=
  (({ s with
      ptlock := some c
      terminated := (s.thread x).tid :: s.terminated } : State n).setState x .zombie).setCpu c
    (.run x stack .kthreadExiting)

/-- The other threads of the process that `kthread_exit` counts. -/
def liveThreads (s : State n) (p : Fin nproc) : List Slot :=
  (pthreads p).filter fun y => ¬ ProcState.dead (s.thread y).state

def kthreadExitEnd (s : State n) (c : Fin n) (x : Slot) (stack : Nat) : State n :=
  let woken := wakeup2 s x.1 (some (.thread x))
  if (liveThreads s x.1).length = 0 then enterExit (woken.setTable none) c x stack
  else sched woken c x stack .zombie

/-- The lookup of `kthread_join`, under `proc->lock`. -/
def kthreadJoin (s : State n) (c : Fin n) (x : Slot) (stack : Nat) (id : Int) : State n :=
  match (pthreads x.1).find? fun y => (s.thread y).tid = id with
  | none => returnTo s c x stack
  | some y => (s.setLock x.1 (some c)).setCpu c (.run x stack (.joinFound y id))

def joinDone (s : State n) (c : Fin n) (x : Slot) (stack : Nat) (id : Int) : State n :=
  returnTo ({ s with
    joined := ((s.proc x.1).pid, id) :: s.joined }.setLock x.1 none) c x stack

/-- `kfree(t->kstack); t->kstack = 0; t->state = UNUSED`. -/
def reap (s : State n) (y : Slot) : State n :=
  ({ s with
    stackPages := update s.stackPages (s.thread y).kstack none } : State n).setThread y
    { s.thread y with kstack := 0, state := .unused }

def joinReap (s : State n) (c : Fin n) (x : Slot) (stack : Nat) (y : Slot) (id : Int)
    (looped : Bool) : State n :=
  if looped ∧ (s.thread y).state = .unused then s.setCpu c (.run x stack (.panic .joinUnused))
  else if (s.thread y).kstack = 0 then s.setCpu c (.run x stack (.panic .joinKfree))
  else joinDone (reap s y) c x stack id

/-- One turn of the loop in `wait_before_exec`, under `cp->lock`. -/
def execScan (s : State n) (c : Fin n) (x : Slot) (stack : Nat) (threadsAlive : Bool) :
    List (Fin nthread) → State n
  | [] =>
    if threadsAlive then s.setCpu c (.run x stack .execSleep)
    else returnTo ((s.setProc x.1 { s.proc x.1 with executed := false }).setLock x.1 none) c x stack
  | i :: rest =>
    if (x.1, i) = x ∨ (s.thread (x.1, i)).state = .unused then
      s.setCpu c (.run x stack (.execScan rest threadsAlive))
    else
      match (s.thread (x.1, i)).state with
      | .zombie => s.setCpu c (.run x stack (.execReap (x.1, i) rest threadsAlive))
      | .sleeping => s.setCpu c (.run x stack (.execWake (x.1, i) rest))
      | _ => s.setCpu c (.run x stack (.execScan rest true))

def execReap (s : State n) (c : Fin n) (x : Slot) (stack : Nat) (y : Slot)
    (rest : List (Fin nthread)) (threadsAlive : Bool) : State n :=
  if (s.thread y).kstack = 0 then s.setCpu c (.run x stack (.panic .execKfree))
  else (reap s y).setCpu c (.run x stack (.execScan rest threadsAlive))

/-- `sleep`, once it holds `ptable.lock` and has released the other lock. -/
def sleep (s : State n) (c : Fin n) (x : Slot) (stack : Nat) (chan : Chan) (k : Code) : State n :=
  sched (s.setThread x { s.thread x with state := .sleeping, chan := some chan }) c x stack
    (.slept k)

def Syscall.entry (p : Fin nproc) : Syscall → Code
  | .other => .work .syscall
  | .fork => .allocproc
  | .exit => .work .exit
  | .wait => .wait
  | .exec => .waitBeforeExec
  | .kthreadCreate => .allocthread p .kthreadCreate
  | .kthreadExit => .kthreadExit
  | .kthreadJoin id => .kthreadJoin id

/-- `trap` on a system call. -/
def call (s : State n) (c : Fin n) (x : Slot) (stack : Nat) (syscall : Syscall) : State n :=
  if (s.proc x.1).killed || (s.proc x.1).executed then enterExit s c x stack
  else
    match syscall with
    | .exit => enterExit s c x stack
    | _ => s.setCpu c (.run x stack (.code (syscall.entry x.1)))

def kill (s : State n) (pid : Int) : State n :=
  match (List.finRange nproc).find? fun p => (s.proc p).pid = pid with
  | none => s
  | some p => s.setProc p { s.proc p with killed := true }

/-- The body of a system call, or of `exit` up to its last section. -/
def workStep (s : State n) (c : Fin n) (x : Slot) (stack : Nat) (mode : Mode) :
    Cmd → Option (State n)
  | .take h => if ∀ e ∈ s.busy, e.1 ≠ h then some { s with busy := (h, x) :: s.busy } else none
  | .drop h => if (h, x) ∈ s.busy then some { s with busy := s.busy.erase (h, x) } else none
  | .beginOp => some { s with outstanding := x :: s.outstanding }
  | .endOp =>
    if x ∈ s.outstanding then some { s with outstanding := s.outstanding.erase x } else none
  | .sleep a =>
    if s.ptlock = none then
      some ((s.setTable (some c)).setCpu c (.run x stack (.sleeping (.addr a) (.work mode))))
    else none
  | .kill pid => if s.ptlock = none then some (kill s pid) else none
  | .ret =>
    if mode = .syscall ∧ s.released x then some (trapExit s c x stack .user) else none
  | .exit =>
    if mode = .exit ∧ s.released x ∧ s.ptlock = none then some (exit s c x stack) else none
  | _ => none

/-- Steps from the positions without a lock. -/
def codeStep (s : State n) (c : Fin n) (x : Slot) (stack : Nat) : Code → Cmd → Option (State n)
  | .user, .call syscall => some (call s c x stack syscall)
  | .user, .trap => some (trapExit s c x stack .user)
  | .user, .fault => some (s.setProc x.1 { s.proc x.1 with killed := true })
  | .work mode, cmd => workStep s c x stack mode cmd
  | .allocproc, .go => if s.ptlock = none then some (allocproc s c x stack) else none
  | .allocthread p caller, .go =>
    if s.lock p = none then
      some ((s.setLock p (some c)).setCpu c
        (.run x stack (.allocScan p (List.finRange nthread) caller)))
    else none
  | .kalloc y caller, .kalloc page =>
    if s.stackPages page = none then some (allocStack s c x stack y caller page) else none
  | .created y, .go => if s.lock x.1 = none then some (kthreadCreate s c x stack y) else none
  | .copyuvm y, .copyuvm ok =>
    if ok then
      some ((s.setProc y.1 { s.proc y.1 with parent := some x.1 }).setCpu c
        (.run x stack (.code (.copied y))))
    else some (forkFailed s c x stack y)
  | .copied y, .go => if s.ptlock = none then some (forkDone s c x stack y) else none
  | .wait, .go => if s.ptlock = none then some (waitScan s c x stack) else none
  | .kthreadExit, .go => if s.ptlock = none then some (kthreadExit s c x stack) else none
  | .kthreadJoin id, .go => if s.lock x.1 = none then some (kthreadJoin s c x stack id) else none
  | .rejoin y id, .go =>
    if s.lock x.1 = none then
      some ((s.setLock x.1 (some c)).setCpu c (.run x stack (.joinLoop y id)))
    else none
  | .waitBeforeExec, .go =>
    if s.lock x.1 = none then
      some (((s.setProc x.1 { s.proc x.1 with executed := true }).setLock x.1 (some c)).setCpu c
        (.run x stack (.execScan (List.finRange nthread) false)))
    else none
  | .rescan, .go =>
    if s.lock x.1 = none then
      some ((s.setLock x.1 (some c)).setCpu c
        (.run x stack (.execScan (List.finRange nthread) true)))
    else none
  | _, _ => none

/-- `trap` on a timer interrupt calls `yield` when it sees `RUNNING`. -/
def tick (s : State n) (c : Fin n) (x : Slot) (stack : Nat) (k : Code) : Option (State n) :=
  if (s.thread x).state = .running then some (s.setCpu c (.run x stack (.yielding k))) else none

/-- `sleep` with `proc->lock`: `acquire(&ptable.lock); release(lk)`. -/
def sleepLocked (s : State n) (c : Fin n) (x : Slot) (stack : Nat) (chan : Chan) (k : Code) :
    Option (State n) :=
  if s.ptlock = none then
    some (((s.setTable (some c)).setLock x.1 none).setCpu c (.run x stack (.sleeping chan k)))
  else none

/-- Steps from the positions that hold a lock, or are about to yield. -/
def lockedStep (s : State n) (c : Fin n) (x : Slot) (stack : Nat) : Pc → Option (State n)
  | .yielding k =>
    if s.ptlock = none then
      some (sched ((s.setState x .runnable).setTable (some c)) c x stack (.yielded k))
    else none
  | .allocScan p rest caller => some (allocScan s c x stack p caller rest)
  | .allocTid y tid caller => some (allocTid s c x stack y tid caller)
  | .sleeping chan k => some (sleep s c x stack chan k)
  | .waitScan => some (waitScan s c x stack)
  | .exited => some (sched s c x stack .zombie)
  | .kthreadExiting => some (kthreadExitEnd s c x stack)
  | .joinFound y id =>
    some (s.setCpu c (.run x stack
      (if (s.thread y).state = .zombie then .joinReap y id false else .joinUsed y id)))
  | .joinUsed y id =>
    if (s.thread y).state = .unused then some (joinDone s c x stack id)
    else some (s.setCpu c (.run x stack (.joinLoop y id)))
  | .joinLoop y id =>
    some (s.setCpu c (.run x stack
      (if (s.thread y).state = .zombie then .joinReap y id true else .joinSleep y id)))
  | .joinSleep y id => sleepLocked s c x stack (.thread y) (.rejoin y id)
  | .joinReap y id looped => some (joinReap s c x stack y id looped)
  | .execScan rest threadsAlive => some (execScan s c x stack threadsAlive rest)
  | .execReap y rest threadsAlive => some (execReap s c x stack y rest threadsAlive)
  | .execWake y rest =>
    some ((s.setState y .runnable).setCpu c (.run x stack (.execScan rest true)))
  | .execSleep => sleepLocked s c x stack (.proc x.1) .rescan
  | _ => none

def step (s : State n) (a : Act n) : Option (State n) :=
  match s.cpu a.cpu, a.cmd with
  | .idle, .go =>
    if s.ptlock = none then some ((s.setTable (some a.cpu)).setCpu a.cpu .scheduling) else none
  | .idle, .wakeup chan =>
    if s.ptlock = none then some (wakeup1 s (some (.addr chan))) else none
  | .scheduling, .go => some ((s.setTable none).setCpu a.cpu .idle)
  | .scheduling, .pick x =>
    if (s.thread x).state = .runnable then some (switchTo s a.cpu x) else none
  | .run x stack (.code k), .tick => tick s a.cpu x stack k
  | .run _ _ (.code _), .wakeup chan =>
    if s.ptlock = none then some (wakeup1 s (some (.addr chan))) else none
  | .run x stack (.code k), cmd => codeStep s a.cpu x stack k cmd
  | .run x stack pc, .go => lockedStep s a.cpu x stack pc
  | _, _ => none

/-- The CPU of a machine with one. -/
def onlyCpu : Fin 1 := ⟨0, Nat.one_pos⟩

/-- After `userinit`: one process with one thread, on the kernel stack `page`. -/
def boot (n page : Nat) : State n where
  proc := fun p =>
    if p = proc0 then ⟨.runnable, 1, none, false, false, none⟩
    else ⟨.unused, 0, none, false, false, none⟩
  thread := fun x =>
    if x = (proc0, thread0) then ⟨page, .runnable, 1, none, ⟨page, .forkret⟩, none⟩
    else ⟨0, .unused, 0, none, ⟨0, .forkret⟩, none⟩
  initproc := proc0
  nextpid := 2
  nexttid := 2
  ptlock := none
  lock := fun _ => none
  cpu := fun _ => .idle
  busy := []
  outstanding := []
  stackPages := fun g => if g = page then some (proc0, thread0) else none
  created := [(1, 1)]
  terminated := []
  joined := []

def on (c : Fin n) (cmds : List Cmd) : List (Act n) :=
  cmds.map (Act.mk c)

/-- `init` forks a process and waits for it; the new process makes a second
thread. -/
def twoThreads (c : Fin n) : List (Act n) :=
  on c [.go, .pick (proc0, thread0), .call .fork, .go, .go, .go, .go, .kalloc 2, .copyuvm true,
    .go, .ret, .call .wait, .go, .pick (proc1, thread0), .call .kthreadCreate, .go, .go, .go, .go,
    .kalloc 3, .go, .ret]

end Xv6.Kernel
