import Mathlib.Data.Fintype.Prod
import Xv6.Basic
import Xv6.Lib.Tally
import Xv6.Lib.Transition

/-! The file table and the descriptors that the threads of a process share. A
thread runs from one point where its call can sleep to the next; while it does
not sleep there, no other thread runs. Inodes and pipes appear with their
references only. -/
namespace Xv6.Files
open Transition
open Function (update)

abbrev nofile : Nat := 16
abbrev nfile : Nat := 100

abbrev Proc := Fin nproc
abbrev Thread := Proc × Fin nthread
abbrev Fd := Fin nofile
abbrev FileId := Fin nfile
/-- `proc->ofile[fd]` of a process. -/
abbrev Slot := Proc × Fd

inductive FdType where
  | none
  | pipe
  | inode
deriving DecidableEq

/-- `struct file` without the offset. -/
structure File where
  type : FdType
  ref : Nat
  readable : Bool
  writable : Bool
  pipe : Nat
  ip : Nat

structure Pipe where
  allocated : Bool
  readopen : Bool
  writeopen : Bool

structure Tables where
  file : FileId → File
  ofile : Slot → Option FileId
  pipe : Nat → Pipe
  iref : Nat → Int

def Tables.setFile (T : Tables) (f : FileId) (file : File) : Tables :=
  { T with file := update T.file f file }

def Tables.setSlot (T : Tables) (slot : Slot) (f : Option FileId) : Tables :=
  { T with ofile := update T.ofile slot f }

def Tables.addRef (T : Tables) (ip : Nat) (n : Int) : Tables :=
  { T with iref := update T.iref ip (T.iref ip + n) }

def argfd (T : Tables) (p : Proc) (fd : Int) : Option (Fd × FileId) :=
  if h : 0 ≤ fd ∧ fd.toNat < nofile then
    (T.ofile (p, ⟨fd.toNat, h.2⟩)).map fun f => (⟨fd.toNat, h.2⟩, f)
  else none

def fdalloc (T : Tables) (p : Proc) (f : FileId) : Option (Tables × Fd) :=
  ((List.finRange nofile).find? fun fd => T.ofile (p, fd) = none).map fun fd =>
    (T.setSlot (p, fd) (some f), fd)

def filealloc (T : Tables) : Option (Tables × FileId) :=
  ((List.finRange nfile).find? fun f => (T.file f).ref = 0).map fun f =>
    (T.setFile f { T.file f with ref := 1 }, f)

def filedup (T : Tables) (f : FileId) : Option Tables :=
  if (T.file f).ref < 1 then none
  else some (T.setFile f { T.file f with ref := (T.file f).ref + 1 })

def pipeclose (T : Tables) (q : Nat) (writable : Bool) : Tables :=
  let closed : Pipe :=
    if writable then { T.pipe q with writeopen := false }
    else { T.pipe q with readopen := false }
  let freed : Pipe :=
    if closed.readopen = false ∧ closed.writeopen = false then { closed with allocated := false }
    else closed
  { T with pipe := update T.pipe q freed }

/-- `fileclose` up to `begin_op`, with the inode that is left to `iput`; `none`
is the panic. -/
def fileclose (T : Tables) (f : FileId) : Option (Tables × Option Nat) :=
  if (T.file f).ref < 1 then none
  else if 1 < (T.file f).ref then
    some (T.setFile f { T.file f with ref := (T.file f).ref - 1 }, none)
  else
    let closed := T.setFile f { T.file f with ref := 0, type := .none }
    match (T.file f).type with
    | .pipe => some (pipeclose closed (T.file f).pipe (T.file f).writable, none)
    | .inode => some (closed, some (T.file f).ip)
    | .none => some (closed, none)

/-- Where `fileclose` and `exit` sleep. -/
inductive Stage where
  | beginOp
  | iput
  | endOp
deriving DecidableEq

/-- What is left to do when a `fileclose` returns. -/
inductive Next where
  /-- The other files to close before the call returns. -/
  | files (rest : List FileId)
  /-- In `sys_open`, without a descriptor. -/
  | openFailed (ip : Nat)
  /-- In the loop of `exit`. -/
  | exit (fd : Fd) (rest : List Fd)
deriving DecidableEq

inductive Pc where
  | user
  | open (omode : Nat)
  /-- In the last `end_op` of `sys_open`, with the descriptor stored. -/
  | opened (fd : Fd) (f : FileId) (omode : Nat) (ip : Nat)
  /-- In the `iunlockput` of a failing `sys_open`. -/
  | openFailed (ip : Nat)
  | endOp
  /-- In `fileclose`, after the release of `ftable.lock`. -/
  | closing (ip : Nat) (stage : Stage) (next : Next)
  | piperead (f : FileId) (q : Nat)
  | pipewrite (f : FileId) (q : Nat)
  | fileread (f : FileId)
  | filewrite (f : FileId)
  /-- In `exit`, where the reference of `proc->cwd` is dropped. -/
  | exitCwd (stage : Stage)
deriving DecidableEq

inductive Panic where
  | fileclose
  | filedup
  | fileread
  | filewrite
  | initExiting
deriving DecidableEq

structure State where
  tables : Tables
  state : Proc → ProcState
  live : Thread → Bool
  pc : Thread → Pc
  /-- The thread that is in a call and has not slept at its position. -/
  current : Option Thread
  panic : Option Panic

inductive Call where
  | open (omode : Nat)
  | close (fd : Int)
  | dup (fd : Int)
  /-- With the page that `kalloc` finds. -/
  | pipe (page : Option Nat)
  /-- With the outcome of the checks of the other arguments. -/
  | read (fd : Int) (ok : Bool)
  | write (fd : Int) (ok : Bool)
  /-- `fork` or `cow_fork`, with the entry that `allocproc` finds. -/
  | fork (child : Proc)
  | exit
  | kthreadCreate (i : Fin nthread)

inductive Act where
  | call (t : Thread) (call : Call)
  /-- `create` or `namei` comes to an end in `sys_open`; a found inode is
  locked, `isDir` says that it is a directory. -/
  | lookup (t : Thread) (found : Option Nat) (isDir : Bool)
  | go (t : Thread)
  /-- The thread sleeps where it is. -/
  | sleep (t : Thread)
  /-- A `wait` reaps the process. -/
  | wait (p : Proc)

def initproc : Proc := proc0

/-- `userinit`: no file is open. -/
def boot : State where
  tables :=
    { file := fun _ => ⟨.none, 0, false, false, 0, 0⟩
      ofile := fun _ => none
      pipe := fun _ => ⟨false, false, false⟩
      iref := fun _ => 0 }
  state := fun p => if p = initproc then .runnable else .unused
  live := fun t => t = (initproc, thread0)
  pc := fun _ => .user
  current := none
  panic := none

def State.enter (s : State) (t : Thread) (T : Tables) (pc : Pc) : State :=
  { s with
    tables := T
    pc := update s.pc t pc
    current := if pc = .user then none else some t }

def State.fail (s : State) (p : Panic) : State :=
  { s with panic := some p }

def closeFiles : List FileId → Tables → Option (Tables × Pc)
  | [], T => some (T, .user)
  | f :: rest, T =>
    match fileclose T f with
    | none => none
    | some (T', none) => closeFiles rest T'
    | some (T', some ip) => some (T', .closing ip .beginOp (.files rest))

/-- The loop over the descriptors in `exit`, up to the first `fileclose` that
sleeps. -/
def exitLoop (p : Proc) : List Fd → Tables → Option (Tables × Pc)
  | [], T => some (T, .exitCwd .beginOp)
  | fd :: rest, T =>
    match T.ofile (p, fd) with
    | none => exitLoop p rest T
    | some f =>
      match fileclose T f with
      | none => none
      | some (T', none) => exitLoop p rest (T'.setSlot (p, fd) none)
      | some (T', some ip) => some (T', .closing ip .beginOp (.exit fd rest))

def forkLoop (p child : Proc) : List Fd → Tables → Option Tables
  | [], T => some T
  | fd :: rest, T =>
    match T.ofile (p, fd) with
    | none => forkLoop p child rest T
    | some f =>
      (filedup T f).bind fun T' => forkLoop p child rest (T'.setSlot (child, fd) (some f))

/-- A call that may have run into the panic of `fileclose`. -/
def State.proceed (s : State) (t : Thread) : Option (Tables × Pc) → State
  | none => s.fail .fileclose
  | some (T, pc) => s.enter t T pc

def openFile (T : Tables) (p : Proc) (omode ip : Nat) : Option (Tables × Pc) :=
  match filealloc T with
  | none => some (T, .openFailed ip)
  | some (T', f) =>
    match fdalloc T' p f with
    | some (T'', fd) => some (T'', .opened fd f omode ip)
    | none =>
      match fileclose T' f with
      | none => none
      | some (T'', none) => some (T'', .openFailed ip)
      | some (T'', some old) => some (T'', .closing old .beginOp (.openFailed ip))

def openDone (T : Tables) (f : FileId) (omode ip : Nat) : Tables :=
  T.setFile f
    { T.file f with
      type := .inode
      ip := ip
      readable := !omode.testBit 0
      writable := omode.testBit 0 || omode.testBit 1 }

def pipeInit (T : Tables) (f0 f1 : FileId) (q : Nat) : Tables :=
  let T' := { T with pipe := update T.pipe q ⟨true, true, true⟩ }
  let T'' := T'.setFile f0
    { T'.file f0 with type := .pipe, readable := true, writable := false, pipe := q }
  T''.setFile f1
    { T''.file f1 with type := .pipe, readable := false, writable := true, pipe := q }

def pipe (T : Tables) (p : Proc) (page : Option Nat) : Option (Tables × Pc) :=
  match filealloc T with
  | none => some (T, .user)
  | some (T0, f0) =>
    match filealloc T0 with
    | none => closeFiles [f0] T0
    | some (T1, f1) =>
      match page with
      | none => closeFiles [f0, f1] T1
      | some q =>
        match fdalloc (pipeInit T1 f0 f1 q) p f0 with
        | none => closeFiles [f0, f1] (pipeInit T1 f0 f1 q)
        | some (T2, fd0) =>
          match fdalloc T2 p f1 with
          | none => closeFiles [f0, f1] (T2.setSlot (p, fd0) none)
          | some (T3, _) => some (T3, .user)

def dup (s : State) (t : Thread) (f : FileId) : State :=
  match fdalloc s.tables t.1 f with
  | none => s
  | some (T, _) =>
    match filedup T f with
    | none => s.fail .filedup
    | some T' => s.enter t T' .user

def fileread (s : State) (t : Thread) (f : FileId) : State :=
  let file := s.tables.file f
  if file.readable = false then s
  else match file.type with
    | .pipe => s.enter t s.tables (.piperead f file.pipe)
    | .inode => s.enter t s.tables (.fileread f)
    | .none => s.fail .fileread

def filewrite (s : State) (t : Thread) (f : FileId) : State :=
  let file := s.tables.file f
  if file.writable = false then s
  else match file.type with
    | .pipe => s.enter t s.tables (.pipewrite f file.pipe)
    | .inode => s.enter t s.tables (.filewrite f)
    | .none => s.fail .filewrite

def fork (s : State) (t : Thread) (child : Proc) : State :=
  match forkLoop t.1 child (List.finRange nofile) s.tables with
  | none => s.fail .filedup
  | some T =>
    { s with
      tables := T
      state := update s.state child .runnable
      live := update s.live (child, thread0) true
      pc := update s.pc (child, thread0) .user }

/-- The end of `exit`: every thread of the process becomes a zombie. -/
def exitDone (s : State) (p : Proc) : State :=
  { s with
    state := update s.state p .zombie
    live := fun u => if u.1 = p then false else s.live u
    pc := fun u => if u.1 = p then .user else s.pc u
    current := none }

def call (s : State) (t : Thread) : Call → Option State
  | .open omode => some (s.enter t s.tables (.open omode))
  | .close fd =>
    match argfd s.tables t.1 fd with
    | none => some s
    | some (fd, f) => some (s.proceed t (closeFiles [f] (s.tables.setSlot (t.1, fd) none)))
  | .dup fd =>
    match argfd s.tables t.1 fd with
    | none => some s
    | some (_, f) => some (dup s t f)
  | .pipe page =>
    if page.all fun q => (s.tables.pipe q).allocated = false then
      some (s.proceed t (pipe s.tables t.1 page))
    else none
  | .read fd ok =>
    match argfd s.tables t.1 fd with
    | none => some s
    | some (_, f) => if ok then some (fileread s t f) else some s
  | .write fd ok =>
    match argfd s.tables t.1 fd with
    | none => some s
    | some (_, f) => if ok then some (filewrite s t f) else some s
  | .fork child => if s.state child = .unused then some (fork s t child) else none
  | .exit =>
    if t.1 = initproc then some (s.fail .initExiting)
    else some (s.proceed t (exitLoop t.1 (List.finRange nofile) s.tables))
  | .kthreadCreate i =>
    if s.live (t.1, i) then none
    else
      some { s with
        live := update s.live (t.1, i) true
        pc := update s.pc (t.1, i) .user }

def lookup (s : State) (t : Thread) (omode : Nat) : Option Nat → Bool → State
  | none, _ => s.enter t s.tables .endOp
  | some ip, isDir =>
    let T := s.tables.addRef ip 1
    if isDir ∧ omode ≠ 0 then s.enter t T (.openFailed ip)
    else s.proceed t (openFile T t.1 omode ip)

def resume (T : Tables) (p : Proc) : Next → Option (Tables × Pc)
  | .files rest => closeFiles rest T
  | .openFailed ip => some (T, .openFailed ip)
  | .exit fd rest => exitLoop p rest (T.setSlot (p, fd) none)

def go (s : State) (t : Thread) : Pc → Option State
  | .opened _ f omode ip => some (s.enter t (openDone s.tables f omode ip) .user)
  | .openFailed ip => some (s.enter t (s.tables.addRef ip (-1)) .endOp)
  | .endOp => some (s.enter t s.tables .user)
  | .closing ip .beginOp next => some (s.enter t s.tables (.closing ip .iput next))
  | .closing ip .iput next => some (s.enter t (s.tables.addRef ip (-1)) (.closing ip .endOp next))
  | .closing _ .endOp next => some (s.proceed t (resume s.tables t.1 next))
  | .piperead _ _ | .pipewrite _ _ | .fileread _ | .filewrite _ => some (s.enter t s.tables .user)
  | .exitCwd .beginOp => some (s.enter t s.tables (.exitCwd .iput))
  | .exitCwd .iput => some (s.enter t s.tables (.exitCwd .endOp))
  | .exitCwd .endOp => some (exitDone s t.1)
  | .user | .open _ => none

/-- The thread is there and no other thread is between two sleep points. -/
def State.mayRun (s : State) (t : Thread) : Prop :=
  s.live t = true ∧ (s.current = none ∨ s.current = some t)

instance (s : State) (t : Thread) : Decidable (s.mayRun t) :=
  inferInstanceAs (Decidable (_ ∧ _))

def act (s : State) : Act → Option State
  | .call t c => if s.mayRun t ∧ s.pc t = .user then call s t c else none
  | .lookup t found isDir =>
    if s.mayRun t then
      match s.pc t with
      | .open omode => some (lookup s t omode found isDir)
      | _ => none
    else none
  | .go t => if s.mayRun t then go s t (s.pc t) else none
  | .sleep t => if s.current = some t then some { s with current := none } else none
  | .wait p =>
    if s.current = none ∧ s.state p = .zombie then
      some { s with state := update s.state p .unused }
    else none

def step (s : State) (a : Act) : Option State :=
  if s.panic = none then act s a else none

end Xv6.Files
