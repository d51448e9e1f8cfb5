import Mathlib.Data.List.FinRange
import Xv6.Basic
import Xv6.Vm.Exec

/-! The system calls and traps that change address spaces, for processes with
one thread each. Each call is one step. While a process lives its `p->state` is
`RUNNABLE`; only its thread sleeps or runs. -/
namespace Xv6.Vm

abbrev Slot := Fin nproc

/-- `kstack` belongs to the process's only thread. `freevm` destroys the
directory, so the pointer that `wait` leaves behind is not kept. -/
structure Proc where
  state : ProcState
  sz : Nat
  pgdir : Option PageDir
  parent : Option Slot
  kstack : Option Nat
  killed : Bool

structure Machine where
  procs : Slot → Proc
  initproc : Slot
  mem : Mem

def Machine.setProc (s : Machine) (p : Slot) (proc : Proc) : Machine :=
  { s with procs := Function.update s.procs p proc }

/-- The process gets a directory, or its own one after a change. -/
def Machine.setDir (s : Machine) (p : Slot) (d : PageDir) : Machine :=
  s.setProc p { s.procs p with pgdir := some d }

/-- What a call or a memory access gives to the process. `retry` is the return
from a handled fault: the instruction is executed again. -/
inductive Outcome where
  | child (c : Slot)
  | reaped (c : Slot)
  | done
  | failed
  | blocked
  | loaded (byte : UInt8)
  | stored
  | retry
  | killed
deriving DecidableEq, Repr

def Machine.unusedSlot (s : Machine) : Option Slot :=
  (List.finRange nproc).find? fun p => (s.procs p).state = .unused

/-- `allocproc` with the part of `allocthread` that allocates the stack. When
`kalloc` returns 0 the slot stays `EMBRYO`. -/
def allocproc (s : Machine) : Option Slot × Machine :=
  match s.unusedSlot with
  | none => (none, s)
  | some c =>
    let s := s.setProc c { s.procs c with state := .embryo }
    match kalloc s.mem with
    | (none, m) => (none, { s with mem := m })
    | (some q, m) => (some c, { s.setProc c { s.procs c with kstack := some q } with mem := m })

/-- `fork` and `cow_fork` differ in how they make the child's directory. -/
def forkWith (dup : Mem → PageDir → Nat → Option (Option PageDir × PageDir × Mem))
    (s : Machine) (p : Slot) : Option (Machine × Outcome) :=
  match allocproc s with
  | (none, s) => some (s, .failed)
  | (some c, s) =>
    match (s.procs p).pgdir with
    | none => none
    | some src =>
      match dup s.mem src (s.procs p).sz with
      | none => none
      | some (none, src, m) =>
        match (s.procs c).kstack with
        | none => none
        | some q =>
          (kfree m q).map fun m =>
            let s := s.setDir p src
            ({ s.setProc c { s.procs c with pgdir := none, kstack := none, state := .unused } with
                mem := m }, .failed)
      | some (some d, src, m) =>
        let s := s.setDir p src
        let np := { s.procs c with
          pgdir := some d, sz := (s.procs p).sz, parent := some p, state := .runnable }
        some ({ s.setProc c np with mem := m }, .child c)

def fork : Machine → Slot → Option (Machine × Outcome) :=
  forkWith fun m src sz => (copyuvm m src sz).map fun result => (result.1, src, result.2)

def cowFork : Machine → Slot → Option (Machine × Outcome) :=
  forkWith cowShareuvm

/-- The children of an exiting process pass to `init`. -/
def reparent (s : Machine) (p : Slot) (proc : Proc) : Proc :=
  if proc.parent = some p then { proc with parent := some s.initproc } else proc

def exit (s : Machine) (p : Slot) : Option Machine :=
  if p = s.initproc then none
  else
    let procs := fun c => reparent s p (s.procs c)
    some { s with procs := Function.update procs p { procs p with state := .zombie } }

def Machine.zombieChild (s : Machine) (p : Slot) : Option Slot :=
  (List.finRange nproc).find? fun c =>
    (s.procs c).parent = some p ∧ (s.procs c).state = .zombie

/-- `wait` and `cow_wait` differ in how they free the child's directory. -/
def waitWith (free : Mem → PageDir → Option Mem) (s : Machine) (p : Slot) :
    Option (Machine × Outcome) :=
  match s.zombieChild p with
  | none =>
    if (∃ c, (s.procs c).parent = some p) ∧ (s.procs p).killed = false then some (s, .blocked)
    else some (s, .failed)
  | some c =>
    match (s.procs c).kstack, (s.procs c).pgdir with
    | some q, some d =>
      (kfree s.mem q).bind fun m =>
        (free m d).map fun m =>
          let np := { s.procs c with
            kstack := none, pgdir := none, state := .unused, parent := none, killed := false }
          ({ s.setProc c np with mem := m }, .reaped c)
    | _, _ => none

def wait : Machine → Slot → Option (Machine × Outcome) :=
  waitWith freevm

def cowWait : Machine → Slot → Option (Machine × Outcome) :=
  waitWith cowFreevm

/-- `sz + n` in 32-bit arithmetic. -/
def grownSize (sz : Nat) (n : Int) : Nat :=
  ((sz + n) % wordSize).toNat

def resize (m : Mem) (d : PageDir) (sz : Nat) (n : Int) : Option (Nat × PageDir × Mem) :=
  if 0 < n then allocuvm m d sz (grownSize sz n)
  else if n < 0 then deallocuvm m d sz (grownSize sz n)
  else some (sz, d, m)

/-- `growproc(n)` behind `sbrk`. A result 0 of `allocuvm` or `deallocuvm` is an
error, and then the size is not stored. -/
def growproc (s : Machine) (p : Slot) (n : Int) : Option (Machine × Outcome) :=
  match (s.procs p).pgdir with
  | none => none
  | some d =>
    match resize s.mem d (s.procs p).sz n with
    | none => none
    | some (sz, d, m) =>
      if sz = 0 ∧ n ≠ 0 then some ({ s.setDir p d with mem := m }, .failed)
      else
        some ({ s.setProc p { s.procs p with pgdir := some d, sz := sz } with mem := m }, .done)

def exec (s : Machine) (p : Slot) (img : Image) : Option (Machine × Outcome) :=
  match (s.procs p).pgdir with
  | none => none
  | some old =>
    match loadImage s.mem img with
    | none => none
    | some (none, m) => some ({ s with mem := m }, .failed)
    | some (some (d, sz), m) =>
      (freevm m old).map fun m =>
        ({ s.setProc p { s.procs p with pgdir := some d, sz := sz } with mem := m }, .done)

/-- `trap` for a page fault at `va` in user mode. A fault that `cow_copyuvm`
does not handle kills the process, which exits on the way out. -/
def pgfault (s : Machine) (p : Slot) (va : Nat) : Option (Machine × Outcome) :=
  match (s.procs p).pgdir with
  | none => none
  | some d =>
    match cowCopyuvm s.mem d va (s.procs p).sz with
    | (true, d, m) =>
      some ({ s.setDir p d with mem := m }, .retry)
    | (false, d, m) =>
      let s := { s.setProc p { s.procs p with pgdir := some d, killed := true } with mem := m }
      (exit s p).map fun s => (s, .killed)

def offset (va : Nat) : Fin pgsize :=
  ⟨va % pgsize, Nat.mod_lt _ (by decide)⟩

def load (s : Machine) (p : Slot) (va : Nat) : Option (Machine × Outcome) :=
  match (s.procs p).pgdir with
  | none => none
  | some d =>
    match d.lookup (va / pgsize) with
    | some ⟨q, true, ⟨_, true, _⟩⟩ => some (s, .loaded (s.mem.frame q (offset va)))
    | _ => pgfault s p va

def store (s : Machine) (p : Slot) (va : Nat) (byte : UInt8) : Option (Machine × Outcome) :=
  match (s.procs p).pgdir with
  | none => none
  | some d =>
    match d.lookup (va / pgsize) with
    | some ⟨q, true, ⟨true, true, _⟩⟩ =>
      some ({ s with mem := s.mem.writeByte q (offset va) byte }, .stored)
    | _ => pgfault s p va

inductive Act where
  | fork
  | cowFork
  | exit
  | wait
  | cowWait
  | exec (img : Image)
  | sbrk (n : Int)
  | load (va : Nat)
  | store (va : Nat) (byte : UInt8)

/-- The process in slot `p` acts. -/
def act (s : Machine) (p : Slot) : Act → Option (Machine × Outcome)
  | .fork => fork s p
  | .cowFork => cowFork s p
  | .exit => (exit s p).map fun s => (s, .done)
  | .wait => wait s p
  | .cowWait => cowWait s p
  | .exec img => exec s p img
  | .sbrk n => growproc s p n
  | .load va => load s p va
  | .store va byte => store s p va byte

def stepOut (s : Machine) (label : Slot × Act) : Option (Machine × Outcome) :=
  if (s.procs label.1).state = .runnable then act s label.1 label.2 else none

def step (s : Machine) (label : Slot × Act) : Option Machine :=
  (stepOut s label).map Prod.fst

def emptyTable : Slot → Proc :=
  fun _ => ⟨.unused, 0, none, none, none, false⟩

/-- The slot that the first process gets, and the next one. -/
abbrev slot0 : Slot := 0
abbrev slot1 : Slot := 1

/-- `userinit`: the first process, with one page. Its `page_counters` entry
stays 0. -/
def userinit (m : Mem) (init : Page) : Option Machine :=
  match allocproc ⟨emptyTable, slot0, m⟩ with
  | (none, _) => none
  | (some c, s) =>
    match setupkvm s.mem with
    | (none, _) => none
    | (some d, m) =>
      (inituvm m d init).map fun result =>
        { s.setProc c { s.procs c with pgdir := some result.1, sz := pgsize, state := .runnable
          } with
          initproc := c
          mem := result.2 }

end Xv6.Vm
