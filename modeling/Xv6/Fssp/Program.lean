import Xv6.Fssp.Automaton
import Xv6.Fssp.Barrier

/-! The program `fssp.c`: a main thread and one thread for each soldier, which
read each other's states without a lock. A step is one access to shared memory,
one mutex call or one step of `inc_barrier`, and a label names the thread that
makes it. -/
namespace Xv6.Fssp
open Mutex

/-- What `main` makes of its argument; `none` is "Illegal input". -/
def numOfSoldiers (arg : Int) : Option Nat :=
  if arg ≤ 0 ∨ 15 < arg then none else some arg.toNat

def symbol (state : Int) : Char :=
  if state = Q then 'Q'
  else if state = P then 'P'
  else if state = R then 'R'
  else if state = Z then 'Z'
  else if state = M then 'M'
  else if state = F then 'F'
  else ' '

/-- An entry of `soldiers`, without the stack that its thread runs on. -/
structure Soldier where
  state : Int
  tid : Int
  index : Int

inductive MainPc where
  | bannerLock
  | bannerUnlock
  | initBarrier
  /-- The loop over the soldiers, with the test and the first store. -/
  | initState (i : Nat)
  | create (i : Nat)
  | storeTid (i : Nat) (tid : Int)
  | storeIndex (i : Nat)
  | general
  /-- `print_soldiers_state`, the first one or one in the loop. -/
  | printLock (first : Bool)
  | print (first : Bool) (i : Nat) (line : List Char)
  | printUnlock (first : Bool) (line : List Char)
  | callStart
  | inStart
  | test
  | callCompute
  | inCompute
  | callUpdate
  | inUpdate
  | join (i : Nat)
  | killBarrier
  | deallocPrint
  | exited
deriving DecidableEq

inductive SoldierPc where
  | unborn
  | callStart
  | inStart
  | find (i : Nat)
  /-- "ERROR: worng index". -/
  | noIndex
  | test (index : Nat)
  | loadCurr (index : Nat)
  | loadLeft (index : Nat) (curr : Int)
  | loadRight (index : Nat) (curr left : Int)
  | trans (index : Nat) (curr left right : Int)
  | callCompute (index : Nat) (next : Int)
  | inCompute (index : Nat) (next : Int)
  | store (index : Nat) (next : Int)
  | callUpdate (index : Nat)
  | inUpdate (index : Nat)
  | exited
deriving DecidableEq

/-- `none` is the main thread. -/
abbrev Thread (n : Nat) := Option (Fin n)

/-- `round` and `lines` are not program data: the turns of the `while` loop
that a thread has made, and the finished lines of output. -/
structure State (n : Nat) where
  soldiers : Nat → Soldier
  printMx : MxState
  barrier : Barrier.State (Thread n)
  main : MainPc
  soldier : Fin n → SoldierPc
  round : Thread n → Nat
  lines : List (List Char)

variable {n : Nat}

/-- `main` has accepted its argument and has allocated `print_mx` and the array,
whose content is arbitrary. -/
def boot (n : Nat) (memory : Nat → Soldier) : State n where
  soldiers := memory
  printMx := .unlocked
  barrier := Barrier.initBarrier 0
  main := .bannerLock
  soldier := fun _ => .unborn
  round := fun _ => 0
  lines := []

def State.setSoldier (s : State n) (i : Nat) (soldier : Soldier) : State n :=
  { s with soldiers := Function.update s.soldiers i soldier }

def State.gotoSoldier (s : State n) (i : Fin n) (pc : SoldierPc) : State n :=
  { s with soldier := Function.update s.soldier i pc }

def State.nextRound (s : State n) (t : Thread n) : State n :=
  { s with round := Function.update s.round t (s.round t + 1) }

def State.callBarrier (s : State n) (t : Thread n) : Option (State n) :=
  (Barrier.step s.barrier (.enter t)).map fun barrier => { s with barrier := barrier }

/-- The next step of a thread inside `inc_barrier`, or its return to `after`. -/
def State.inBarrier (s : State n) (t : Thread n) (after : State n) : Option (State n) :=
  if s.barrier.pc t = .out then some after
  else (Barrier.step s.barrier (.go t)).map fun barrier => { s with barrier := barrier }

/-- `kill_barrier`: both mutexes are unlocked and deallocated. -/
def killBarrier (b : Barrier.State (Thread n)) : Barrier.State (Thread n) :=
  { b with preMx := .free, postMx := .free, limit := 0, counter := 0 }

/-- The next step of `main`; `tid` gives the identifiers of the threads that
`kthread_create` makes. -/
def mainStep (tid : Fin n → Int) (s : State n) : MainPc → Option (State n)
  | .bannerLock =>
    if s.printMx = .unlocked then some { s with printMx := .locked, main := .bannerUnlock }
    else none
  | .bannerUnlock => some { s with printMx := .unlocked, main := .initBarrier }
  | .initBarrier =>
    some { s with barrier := Barrier.initBarrier (n + 1 : Nat), main := .initState 0 }
  | .initState i =>
    if i < n then
      some { s.setSoldier i { s.soldiers i with state := Q } with main := .create i }
    else some { s with main := .general }
  | .create i =>
    if h : i < n then
      some { s.gotoSoldier ⟨i, h⟩ .callStart with main := .storeTid i (tid ⟨i, h⟩) }
    else none
  | .storeTid i tid =>
    some { s.setSoldier i { s.soldiers i with tid := tid } with main := .storeIndex i }
  | .storeIndex i =>
    some { s.setSoldier i { s.soldiers i with index := i } with main := .initState (i + 1) }
  | .general =>
    some { s.setSoldier 0 { s.soldiers 0 with state := P } with main := .printLock true }
  | .printLock first =>
    if s.printMx = .unlocked then some { s with printMx := .locked, main := .print first 0 [] }
    else none
  | .print first i line =>
    if i < n then
      some { s with main := .print first (i + 1) (line ++ [symbol (s.soldiers i).state]) }
    else some { s with main := .printUnlock first line }
  | .printUnlock first line =>
    some { s with
      printMx := .unlocked
      lines := s.lines ++ [line]
      main := if first then .callStart else .test }
  | .callStart => (s.callBarrier none).map fun next => { next with main := .inStart }
  | .inStart => s.inBarrier none { s with main := .test }
  | .test =>
    some { s with main := if (s.soldiers 0).state ≠ F then .callCompute else .join 0 }
  | .callCompute => (s.callBarrier none).map fun next => { next with main := .inCompute }
  | .inCompute => s.inBarrier none { s with main := .callUpdate }
  | .callUpdate => (s.callBarrier none).map fun next => { next with main := .inUpdate }
  | .inUpdate => s.inBarrier none { s.nextRound none with main := .printLock false }
  | .join i =>
    if h : i < n then
      -- kthread_join(soldiers[i].tid) returns when that thread has exited
      if s.soldier ⟨i, h⟩ = .exited then some { s with main := .join (i + 1) } else none
    else some { s with main := .killBarrier }
  | .killBarrier => some { s with barrier := killBarrier s.barrier, main := .deallocPrint }
  | .deallocPrint => some { s with printMx := .free, main := .exited }
  | .exited => none

/-- The next step of the thread of a soldier; `tid` is its `kthread_id()`. -/
def soldierStep (tid : Int) (s : State n) (t : Fin n) : SoldierPc → Option (State n)
  | .unborn => none
  | .callStart => (s.callBarrier (some t)).map fun next => next.gotoSoldier t .inStart
  | .inStart => s.inBarrier (some t) (s.gotoSoldier t (.find 0))
  | .find i =>
    if i < n then
      some (s.gotoSoldier t (if (s.soldiers i).tid = tid then .test i else .find (i + 1)))
    else some (s.gotoSoldier t .noIndex)
  | .noIndex => some (s.gotoSoldier t .exited)
  | .test index =>
    some (s.gotoSoldier t (if (s.soldiers index).state ≠ F then .loadCurr index else .exited))
  | .loadCurr index => some (s.gotoSoldier t (.loadLeft index (s.soldiers index).state))
  | .loadLeft index curr =>
    some (s.gotoSoldier t
      (.loadRight index curr (if index = 0 then X else (s.soldiers (index - 1)).state)))
  | .loadRight index curr left =>
    some (s.gotoSoldier t
      (.trans index curr left (if index = n - 1 then X else (s.soldiers (index + 1)).state)))
  | .trans index curr left right =>
    (trans curr left right).map fun next => s.gotoSoldier t (.callCompute index next)
  | .callCompute index next =>
    (s.callBarrier (some t)).map fun after => after.gotoSoldier t (.inCompute index next)
  | .inCompute index next => s.inBarrier (some t) (s.gotoSoldier t (.store index next))
  | .store index next =>
    some ((s.setSoldier index { s.soldiers index with state := next }).gotoSoldier t
      (.callUpdate index))
  | .callUpdate index =>
    (s.callBarrier (some t)).map fun after => after.gotoSoldier t (.inUpdate index)
  | .inUpdate index =>
    s.inBarrier (some t) ((s.nextRound (some t)).gotoSoldier t (.test index))
  | .exited => none

def step (tid : Fin n → Int) (s : State n) : Thread n → Option (State n)
  | none => mainStep tid s s.main
  | some t => soldierStep (tid t) s t (s.soldier t)

end Xv6.Fssp
