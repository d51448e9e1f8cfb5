import Mathlib.Data.Fintype.Prod
import Xv6.Basic
import Xv6.Lib.Tally
import Xv6.Lib.Transition

/-! The reference behind `proc->cwd`. `sys_chdir` and `exit` call `iput` with the
pointer and replace it after `end_op`; both can sleep there, and then the pointer
stands without its reference for every thread of the process. -/
namespace Xv6.Cwd
open Function Transition Tally

abbrev Proc := Fin nproc
abbrev Thread := Proc × Fin nthread

/-- Who looks a path up: `sys_chdir`, or a call that gives the inode back. -/
inductive Job where
  | chdir
  | other
deriving DecidableEq

inductive Pc where
  | user
  | beginOp (job : Job)
  /-- In `namex`, at `ilock(ip)` or in `dirlookup`. -/
  | walk (job : Job) (ip : Nat)
  /-- In `namex`, at `iunlockput(ip)` with the next inode found. -/
  | pass (job : Job) (ip next : Nat)
  /-- At the `iput` of an inode that is not needed any more. -/
  | drop (ip : Nat)
  | endOp
  | chdir (ip : Nat)
  /-- In `iput(proc->cwd)`, called with `old`. -/
  | chdirPut (ip old : Nat)
  /-- In `end_op`, before `proc->cwd = ip`. -/
  | chdirEnd (ip : Nat)
  | exitBegin
  | exitPut (old : Nat)
  | exitEnd
deriving DecidableEq

/-- The life of the references of the current directories: `take` when a
reference becomes that of `cwd`, `drop` when `iput(proc->cwd)` counts down. -/
inductive Event where
  | take (p : Proc) (ip : Nat)
  | drop (p : Proc) (ip : Nat)
deriving DecidableEq

structure State where
  ref : Nat → Int
  cwd : Proc → Option Nat
  state : Proc → ProcState
  live : Thread → Bool
  pc : Thread → Pc
  /-- The thread that is in a call and has not slept at its position. -/
  current : Option Thread
  log : List Event

inductive Call where
  | chdir
  | lookup
  | fork (child : Proc)
  | exit
  | kthreadCreate (i : Fin nthread)

inductive Act where
  | call (t : Thread) (call : Call)
  /-- `namex` starts, at the root or at `proc->cwd`. -/
  | start (t : Thread) (absolute : Bool)
  /-- `dirlookup` finds the next inode, or the lookup fails. -/
  | find (t : Thread) (next : Option Nat)
  /-- No path element is left. -/
  | arrive (t : Thread)
  | check (t : Thread) (isDir : Bool)
  | go (t : Thread)
  /-- The thread sleeps where it is. -/
  | sleep (t : Thread)
  /-- A `wait` reaps the process. -/
  | wait (p : Proc)

def initproc : Proc := proc0

def rootino : Nat := 1

/-- `userinit`, with `p->cwd = namei("/")`. -/
def boot : State where
  ref := fun ip => if ip = rootino then 1 else 0
  cwd := fun p => if p = initproc then some rootino else none
  state := fun p => if p = initproc then .runnable else .unused
  live := fun t => t = (initproc, thread0)
  pc := fun _ => .user
  current := none
  log := [.take initproc rootino]

def State.enter (s : State) (t : Thread) (pc : Pc) : State :=
  { s with
    pc := update s.pc t pc
    current := if pc = .user then none else some t }

def State.addRef (s : State) (ip : Nat) (n : Int) : State :=
  { s with ref := update s.ref ip (s.ref ip + n) }

def State.setCwd (s : State) (p : Proc) (ip : Option Nat) : State :=
  { s with cwd := update s.cwd p ip }

def State.record (s : State) (e : Event) : State :=
  { s with log := e :: s.log }

/-- `np->cwd = idup(proc->cwd)` and the new thread. -/
def fork (s : State) (child : Proc) (ip : Nat) : State :=
  let taken := ((s.addRef ip 1).setCwd child (some ip)).record (.take child ip)
  { taken with
    state := update s.state child .runnable
    live := update s.live (child, thread0) true
    pc := update s.pc (child, thread0) .user }

/-- `proc->cwd = 0` and the end of `exit`: no thread of the process runs again. -/
def exitDone (s : State) (t : Thread) : State :=
  { (s.setCwd t.1 none).enter t .user with
    state := update s.state t.1 .zombie
    live := fun u => if u.1 = t.1 then false else s.live u }

def call (s : State) (t : Thread) : Call → Option State
  | .chdir => some (s.enter t (.beginOp .chdir))
  | .lookup => some (s.enter t (.beginOp .other))
  | .fork child =>
    if s.state child = .unused then (s.cwd t.1).map (fork s child) else none
  | .exit => if t.1 = initproc then none else some (s.enter t .exitBegin)
  | .kthreadCreate i =>
    if s.live (t.1, i) then none
    else
      some { s with
        live := update s.live (t.1, i) true
        pc := update s.pc (t.1, i) .user }

def start (s : State) (t : Thread) (job : Job) (absolute : Bool) : Option State :=
  if absolute then some ((s.addRef rootino 1).enter t (.walk job rootino))
  else (s.cwd t.1).map fun ip => (s.addRef ip 1).enter t (.walk job ip)

def find (s : State) (t : Thread) (job : Job) (ip : Nat) : Option Nat → State
  | none => s.enter t (.drop ip)
  | some next => (s.addRef next 1).enter t (.pass job ip next)

def arrive (s : State) (t : Thread) (ip : Nat) : Job → State
  | .chdir => s.enter t (.chdir ip)
  | .other => s.enter t (.drop ip)

/-- `sys_chdir` after `ilock(ip)`: the argument of `iput` is read here. -/
def check (s : State) (t : Thread) (ip : Nat) (isDir : Bool) : Option State :=
  if isDir then (s.cwd t.1).map fun old => s.enter t (.chdirPut ip old)
  else some (s.enter t (.drop ip))

def go (s : State) (t : Thread) : Pc → Option State
  | .pass job ip next => some ((s.addRef ip (-1)).enter t (.walk job next))
  | .drop ip => some ((s.addRef ip (-1)).enter t .endOp)
  | .endOp => some (s.enter t .user)
  | .chdirPut ip old =>
    some (((s.addRef old (-1)).record (.drop t.1 old)).enter t (.chdirEnd ip))
  | .chdirEnd ip => some (((s.setCwd t.1 (some ip)).record (.take t.1 ip)).enter t .user)
  | .exitBegin => (s.cwd t.1).map fun old => s.enter t (.exitPut old)
  | .exitPut old => some (((s.addRef old (-1)).record (.drop t.1 old)).enter t .exitEnd)
  | .exitEnd => some (exitDone s t)
  | .user | .beginOp _ | .walk _ _ | .chdir _ => none

/-- The thread is there and no other thread is between two sleep points. -/
def State.mayRun (s : State) (t : Thread) : Prop :=
  s.live t = true ∧ (s.current = none ∨ s.current = some t)

instance (s : State) (t : Thread) : Decidable (s.mayRun t) :=
  inferInstanceAs (Decidable (_ ∧ _))

def act (s : State) : Act → Option State
  | .call t c => if s.pc t = .user then call s t c else none
  | .start t absolute =>
    match s.pc t with
    | .beginOp job => start s t job absolute
    | _ => none
  | .find t next =>
    match s.pc t with
    | .walk job ip => some (find s t job ip next)
    | _ => none
  | .arrive t =>
    match s.pc t with
    | .walk job ip => some (arrive s t ip job)
    | _ => none
  | .check t isDir =>
    match s.pc t with
    | .chdir ip => check s t ip isDir
    | _ => none
  | .go t => go s t (s.pc t)
  | .sleep _ | .wait _ => none

def Act.thread : Act → Option Thread
  | .call t _ | .start t _ | .find t _ | .arrive t | .check t _ | .go t | .sleep t => some t
  | .wait _ => none

def step (s : State) (a : Act) : Option State :=
  match a with
  | .sleep t => if s.current = some t then some { s with current := none } else none
  | .wait p =>
    if s.current = none ∧ s.state p = .zombie then
      some { s with state := update s.state p .unused }
    else none
  | .call t _ | .start t _ | .find t _ | .arrive t | .check t _ | .go t =>
    if s.mayRun t then act s a else none

variable {s s' : State} {t u : Thread} {p q child : Proc} {ip old : Nat} {pc : Pc}
  {v : Option Nat} {log : List Event}

/-- The references of a call in progress: the inode it is at, and the next one. -/
def Pc.first : Pc → Option Nat
  | .walk _ ip | .pass _ ip _ | .drop ip | .chdir ip | .chdirPut ip _ | .chdirEnd ip => some ip
  | _ => none

def Pc.second : Pc → Option Nat
  | .pass _ _ next => some next
  | _ => none

/-- Between the reading of `proc->cwd` for `iput` and the store of the new one. -/
def Pc.window : Pc → Bool
  | .chdirPut _ _ | .chdirEnd _ | .exitPut _ | .exitEnd => true
  | _ => false

def Pc.dropped : Pc → Bool
  | .chdirEnd _ | .exitEnd => true
  | _ => false

def pointers {ι : Type} [Fintype ι] (family : ι → Option Nat) (ip : Nat) : Nat :=
  tally (fun pointer => pointer == some ip) family

def one (pointer : Option Nat) (ip : Nat) : Nat :=
  if pointer = some ip then 1 else 0

@[simp] theorem one_none : one none ip = 0 := if_neg (by simp)

@[simp] theorem one_self : one (some ip) ip = 1 := if_pos rfl

theorem one_ne (h : old ≠ ip) : one (some old) ip = 0 := if_neg (by simpa using h)

theorem pointers_update {ι : Type} [Fintype ι] [DecidableEq ι] (family : ι → Option Nat) (i : ι)
    (v : Option Nat) (ip : Nat) :
    pointers (update family i v) ip + one (family i) ip =
      pointers family ip + one v ip := by
  have hupdate : pointers (update family i v) ip +
      (if family i == some ip then 1 else 0) = pointers family ip +
        (if v == some ip then 1 else 0) :=
    tally_update
  simpa [one] using hupdate

theorem pointers_none {ι : Type} [Fintype ι] (ip : Nat) :
    pointers (fun _ : ι => none) ip = 0 :=
  tally_eq_zero fun _ => rfl

def State.held (s : State) : Proc → Option Nat :=
  match s.current with
  | none => s.cwd
  | some t => if (s.pc t).dropped then update s.cwd t.1 none else s.cwd

attribute [local simp] State.held State.enter Pc.second State.setCwd State.record exitDone boot

/-- What the log says of the process: which reference it has now, `none` when one
was dropped that it did not have or taken while it had another. -/
def account (p : Proc) : List Event → Option (Option Nat)
  | [] => some none
  | .take q ip :: rest =>
    if q = p then if account p rest = some none then some (some ip) else none
    else account p rest
  | .drop q ip :: rest =>
    if q = p then if account p rest = some (some ip) then some none else none
    else account p rest

structure Inv (s : State) : Prop where
  window : ∀ t, (s.pc t).window = true → s.current = some t
  reads : ∀ t old, (s.pc t = .exitPut old ∨ ∃ ip, s.pc t = .chdirPut ip old) →
    s.cwd t.1 = some old
  alive : ∀ t, s.live t = true → s.state t.1 = .runnable
  clear : ∀ p, s.state p ≠ .runnable → s.cwd p = none
  refs : ∀ ip, ((pointers s.held ip + pointers (fun t => (s.pc t).first) ip +
    pointers (fun t => (s.pc t).second) ip : Nat) : Int) ≤ s.ref ip
  books : ∀ p, account p s.log = some (s.held p)

theorem inv_boot : Inv boot where
  window := fun t ht => by cases ht
  reads := fun t old h => by rcases h with h | ⟨ip, h⟩ <;> cases h
  alive := fun t ht => by
    have heq : t = (initproc, thread0) := of_decide_eq_true ht
    simp [heq]
  clear := fun p hp => by
    by_cases hinit : p = initproc
    · simp [hinit] at hp
    · simp [hinit]
  refs := fun ip => by
    have hheld : boot.held = update (fun _ => none) initproc (some rootino) := by
      ext1 p
      by_cases hp : p = initproc <;> simp [hp]
    have hupdate := pointers_update (fun _ : Proc => none) initproc (some rootino) ip
    rw [pointers_none, one_none] at hupdate
    rw [hheld, show pointers (fun t => (boot.pc t).first) ip = 0 from pointers_none ip,
      show pointers (fun t => (boot.pc t).second) ip = 0 from pointers_none ip]
    by_cases hip : ip = rootino
    · have href : boot.ref ip = 1 := if_pos hip
      rw [hip, one_self] at hupdate
      rw [href, hip]
      omega
    · have href : boot.ref ip = 0 := if_neg hip
      rw [one_ne (Ne.symm hip)] at hupdate
      rw [href]
      omega
  books := fun p => by
    by_cases hp : p = initproc <;> simp [account, hp, eq_comm]

theorem State.mayRun.current (h : s.mayRun t) (hu : s.current = some u) : u = t := by
  rcases h.2 with hnone | hsome
  · rw [hnone] at hu
    cases hu
  · exact Option.some.inj (hu.symm.trans hsome)

theorem not_dropped {pc : Pc} (h : pc.window = false) : pc.dropped = false := by
  cases pc <;> first | rfl | cases h

theorem after_drop {pc : Pc} (h : pc.dropped = true) :
    pc.second = none ∧ ∀ old, ¬ (pc = .exitPut old ∨ ∃ ip, pc = .chdirPut ip old) := by
  cases pc <;> simp_all [Pc.dropped]

theorem held_of_mayRun (hrun : s.mayRun t) (hpc : (s.pc t).dropped = false) : s.held = s.cwd := by
  rcases hrun.2 with hnone | hsome
  · simp [hnone]
  · simp [hsome, hpc]

theorem held_of_dropped (hcurrent : s.current = some t) (hpc : (s.pc t).dropped = true) :
    s.held = update s.cwd t.1 none := by
  simp [hcurrent, hpc]

theorem held_enter (s : State) (t : Thread) (pc : Pc) :
    (s.enter t pc).held = if pc.dropped then update s.cwd t.1 none else s.cwd := by
  by_cases hpc : pc = .user
  · subst hpc
    simp [Pc.dropped]
  · simp [hpc]

theorem account_take_self (h : account p log = some none) :
    account p (.take p ip :: log) = some (some ip) := by
  simp [account, h]

theorem account_drop_self (h : account p log = some (some ip)) :
    account p (.drop p ip :: log) = some none := by
  simp [account, h]

structure Near (s s' : State) : Prop where
  pc : s'.pc = s.pc
  live : s'.live = s.live
  state : s'.state = s.state

section

variable (h : Inv s) (hrun : s.mayRun t)
include h hrun

/-- A thread moves. Its references and the one behind its `cwd` go from those of
the old position to those of the new one, with what `ref` has changed. -/
theorem Inv.enter (hnear : Near s s')
    (hcwd : ∀ p, s.state p ≠ .runnable → s'.cwd p = none)
    (hreads : ∀ old, (pc = .exitPut old ∨ ∃ ip, pc = .chdirPut ip old) → s'.cwd t.1 = some old)
    (hheld : (s'.enter t pc).held = update s.held t.1 v)
    (hrefs : ∀ ip, ((one pc.first ip + one pc.second ip + one v ip : Nat) : Int) + s.ref ip ≤
      s'.ref ip + ((one (s.pc t).first ip + one (s.pc t).second ip + one (s.held t.1) ip : Nat) :
        Int))
    (haccount : ∀ p, account p s'.log = some (update s.held t.1 v p)) :
    Inv (s'.enter t pc) where
  window := fun u hu => by
    by_cases hut : u = t
    · subst hut
      have hpc : pc ≠ .user := by
        intro hpc
        simp [hpc, Pc.window] at hu
      simp [hpc]
    · have hwindow : (s.pc u).window = true := by simpa [hut, hnear.pc] using hu
      exact absurd (hrun.current (h.window u hwindow)) hut
  reads := fun u old hu => by
    by_cases hut : u = t
    · subst hut
      exact hreads old (by simpa using hu)
    · have hwindow : (s.pc u).window = true := by
        have hu' : s.pc u = .exitPut old ∨ ∃ ip, s.pc u = .chdirPut ip old := by
          simpa [hut, hnear.pc] using hu
        rcases hu' with hu' | ⟨ip, hu'⟩ <;> simp [hu', Pc.window]
      exact absurd (hrun.current (h.window u hwindow)) hut
  alive := fun u hu => by
    have hlive : s.live u = true := hnear.live ▸ hu
    exact (congrFun hnear.state u.1).trans (h.alive u hlive)
  clear := fun p hp => hcwd p (hnear.state ▸ hp)
  refs := fun ip => by
    have hfirst : (fun u => ((s'.enter t pc).pc u).first) =
        update (fun u => (s.pc u).first) t pc.first := by
      ext1 u
      by_cases hu : u = t <;> simp [hnear.pc, hu]
    have hsecond : (fun u => ((s'.enter t pc).pc u).second) =
        update (fun u => (s.pc u).second) t pc.second := by
      ext1 u
      by_cases hu : u = t <;> simp [hnear.pc, hu]
    have hpre := h.refs ip
    have hstep := hrefs ip
    have hone := pointers_update s.held t.1 v ip
    have htwo := pointers_update (fun u => (s.pc u).first) t pc.first ip
    have hthree := pointers_update (fun u => (s.pc u).second) t pc.second ip
    rw [hheld, hfirst, hsecond]
    simp only [State.enter]
    omega
  books := fun p => by
    rw [hheld]
    exact haccount p

/-- A move outside the window: what `ref` has changed pays for the references of
the position. -/
theorem Inv.walk {before : Pc} (ref : Nat → Int)
    (hbefore : s.pc t = before) (hpc : before.window = false) (hpc' : pc.window = false)
    (hrefs : ∀ ip, ((one pc.first ip + one pc.second ip : Nat) : Int) + s.ref ip ≤
      ref ip + ((one before.first ip + one before.second ip : Nat) : Int)) :
    Inv ({ s with ref := ref }.enter t pc) := by
  subst hbefore
  have hheld : s.held = s.cwd := held_of_mayRun hrun (not_dropped hpc)
  have hnear : Near s { s with ref := ref } := ⟨rfl, rfl, rfl⟩
  apply h.enter (v := s.held t.1) hrun hnear h.clear
  · intro old hold
    rcases hold with rfl | ⟨ip, rfl⟩ <;> cases hpc'
  · rw [held_enter, not_dropped hpc', update_eq_self, hheld]
    rfl
  · intro ip
    have hip := hrefs ip
    simp only
    omega
  · intro p
    rw [update_eq_self]
    exact h.books p

theorem Inv.same {before : Pc} (hbefore : s.pc t = before) (hpc : before.window = false)
    (hpc' : pc.window = false) (hfirst : pc.first = before.first)
    (hsecond : pc.second = before.second) : Inv (s.enter t pc) := by
  apply h.walk hrun s.ref hbefore hpc hpc'
  intro ip
  rw [hfirst, hsecond]
  omega

theorem Inv.read {before : Pc} (hbefore : s.pc t = before) (hpc : before.window = false)
    (hcwd : s.cwd t.1 = some old) (hpc' : pc = .exitPut old ∨ ∃ ip, pc = .chdirPut ip old)
    (hfirst : pc.first = before.first) (hsecond : before.second = none) :
    Inv (s.enter t pc) := by
  subst hbefore
  have hdropped' : pc.dropped = false ∧ pc.second = none := by
    rcases hpc' with rfl | ⟨ip, rfl⟩ <;> exact ⟨rfl, rfl⟩
  have hheld : s.held = s.cwd := held_of_mayRun hrun (not_dropped hpc)
  apply h.enter (v := s.held t.1) hrun ⟨rfl, rfl, rfl⟩ h.clear
  · intro old' hold'
    rw [hcwd]
    rcases hpc' with rfl | ⟨ip, rfl⟩ <;> rcases hold' with heq | ⟨ip', heq⟩ <;> cases heq <;> rfl
  · rw [held_enter, hdropped'.1, update_eq_self, hheld]
    rfl
  · intro ip
    rw [hfirst, hsecond, hdropped'.2]
    omega
  · intro p
    rw [update_eq_self]
    exact h.books p

theorem Inv.put (hpc : s.pc t = .exitPut old ∨ ∃ ip, s.pc t = .chdirPut ip old)
    (hpc' : pc.dropped = true) (hfirst : pc.first = (s.pc t).first) :
    Inv (((s.addRef old (-1)).record (.drop t.1 old)).enter t pc) := by
  have hcwd := h.reads t old hpc
  have hold : (s.pc t).dropped = false ∧ (s.pc t).second = none := by
    rcases hpc with hpc | ⟨ip, hpc⟩ <;> rw [hpc] <;> exact ⟨rfl, rfl⟩
  have hnew := after_drop hpc'
  have hheld : s.held = s.cwd := held_of_mayRun hrun hold.1
  have hnear : Near s ((s.addRef old (-1)).record (.drop t.1 old)) := ⟨rfl, rfl, rfl⟩
  apply h.enter (v := none) hrun hnear h.clear
  · exact fun old' hold' => absurd hold' (hnew.2 old')
  · rw [held_enter, hpc', hheld]
    rfl
  · intro ip
    rw [hfirst, hold.2, hnew.1, hheld, hcwd]
    by_cases hip : ip = old
    · subst hip
      simp only [State.record, State.addRef, update_self, one_self, one_none]
      omega
    · simp only [State.record, State.addRef, update_of_ne hip, one_ne (Ne.symm hip), one_none]
      omega
  · intro p
    have hbooks := h.books p
    by_cases hp : p = t.1
    · subst hp
      rw [hheld, hcwd] at hbooks
      rw [update_self]
      exact account_drop_self hbooks
    · rw [update_of_ne hp, ← hbooks]
      exact if_neg (Ne.symm hp)

theorem inv_chdirEnd (hpc : s.pc t = .chdirEnd ip) :
    Inv (((s.setCwd t.1 (some ip)).record (.take t.1 ip)).enter t .user) := by
  have hcurrent : s.current = some t := h.window t (by simp [hpc, Pc.window])
  have hheld : s.held = update s.cwd t.1 none :=
    held_of_dropped hcurrent (by simp [hpc, Pc.dropped])
  have hnear : Near s ((s.setCwd t.1 (some ip)).record (.take t.1 ip)) := ⟨rfl, rfl, rfl⟩
  apply h.enter (v := some ip) hrun hnear
  · intro p hp
    have hne : p ≠ t.1 := fun heq => hp (heq ▸ h.alive t hrun.1)
    simpa [hne] using h.clear p hp
  · simp
  · rw [held_enter, hheld, update_idem]
    rfl
  · intro n
    rw [hpc, hheld, update_self]
    simp only [Pc.first, Pc.second, one_none, State.record, State.setCwd]
    omega
  · intro p
    have hbooks := h.books p
    by_cases hp : p = t.1
    · subst hp
      rw [hheld, update_self] at hbooks
      rw [update_self]
      exact account_take_self hbooks
    · rw [update_of_ne hp, ← hbooks]
      exact if_neg (Ne.symm hp)

theorem inv_exitDone (hpc : s.pc t = .exitEnd) :
    Inv (exitDone s t) := by
  have hcurrent : s.current = some t := h.window t (by simp [hpc, Pc.window])
  have hheld : s.held = update s.cwd t.1 none :=
    held_of_dropped hcurrent (by simp [hpc, Pc.dropped])
  have hnear : Near s (s.setCwd t.1 none) := ⟨rfl, rfl, rfl⟩
  have hcwd : ∀ p, s.state p ≠ .runnable → (s.setCwd t.1 none).cwd p = none := by
    intro p hp
    have hne : p ≠ t.1 := fun heq => hp (heq ▸ h.alive t hrun.1)
    simpa [hne] using h.clear p hp
  have hdone : Inv ((s.setCwd t.1 none).enter t .user) := by
    apply h.enter (v := none) hrun hnear hcwd
    · simp
    · rw [held_enter, hheld, update_idem]
      rfl
    · intro n
      rw [hpc, hheld, update_self]
      simp only [Pc.first, Pc.second, one_none, State.setCwd]
      omega
    · intro p
      have hbooks := h.books p
      rw [hheld] at hbooks ⊢
      rw [update_idem]
      exact hbooks
  refine ⟨hdone.window, hdone.reads, fun u hu => ?_, fun p hp => ?_, hdone.refs, hdone.books⟩
  · by_cases hut : u.1 = t.1
    · simp [hut] at hu
    · have hlive : s.live u = true := by simpa [hut] using hu
      simpa [hut] using h.alive u hlive
  · by_cases hpt : p = t.1
    · simp [hpt]
    · exact hcwd p (by simpa [hpt] using hp)

theorem Inv.spawn (hpc : s.pc t = .user) (hu : u ≠ t)
    (hstate : s.state u.1 = .runnable) :
    Inv { s with
      live := update s.live u true
      pc := update s.pc u .user } := by
  have hquiet : ∀ w, (s.pc w).window = false := by
    intro w
    by_contra hwindow
    have hw := hrun.current (h.window w (by simpa using hwindow))
    rw [hw, hpc] at hwindow
    exact hwindow rfl
  have hheld : s.held = s.cwd := held_of_mayRun hrun (by rw [hpc]; rfl)
  have hheld' : State.held { s with
      live := update s.live u true
      pc := update s.pc u .user } = s.cwd := by
    rcases hrun.2 with hnone | hsome
    · simp [hnone]
    · simp [hsome, Ne.symm hu, hpc, Pc.dropped]
  refine ⟨fun w hw => ?_, fun w old hw => ?_, fun w hw => ?_, h.clear, fun ip => ?_, fun p => ?_⟩
  · by_cases hwu : w = u
    · simp [hwu, Pc.window] at hw
    · simp [hwu, hquiet w] at hw
  · by_cases hwu : w = u
    · simp [hwu] at hw
    · have hcase : s.pc w = .exitPut old ∨ ∃ ip, s.pc w = .chdirPut ip old := by
        simpa [hwu] using hw
      exact h.reads w old hcase
  · by_cases hwu : w = u
    · rw [hwu]
      exact hstate
    · exact h.alive w (by simpa [hwu] using hw)
  · have hpre := h.refs ip
    have hfirst := pointers_update (fun w => (s.pc w).first) u none ip
    have hsecond := pointers_update (fun w => (s.pc w).second) u none ip
    have hfirst' : (fun w => (update s.pc u .user w).first) =
        update (fun w => (s.pc w).first) u none := by
      ext1 w
      by_cases hw : w = u <;> simp [hw, Pc.first]
    have hsecond' : (fun w => (update s.pc u .user w).second) =
        update (fun w => (s.pc w).second) u none := by
      ext1 w
      by_cases hw : w = u <;> simp [hw]
    rw [hheld] at hpre
    rw [hheld']
    simp only [hfirst', hsecond', one_none] at hfirst hsecond ⊢
    omega
  · rw [hheld', ← hheld]
    exact h.books p

theorem inv_idup (hpc : s.pc t = .user)
    (hunused : s.state child = .unused) (ip : Nat) :
    Inv { ((s.addRef ip 1).setCwd child (some ip)).record (.take child ip) with
      state := update s.state child .runnable } := by
  have hheld : s.held = s.cwd := held_of_mayRun hrun (by rw [hpc]; rfl)
  have hnone : s.cwd child = none := h.clear child (by simp [hunused])
  have hheld' : State.held { ((s.addRef ip 1).setCwd child (some ip)).record (.take child ip) with
      state := update s.state child .runnable } =
        update s.cwd child (some ip) := by
    rcases hrun.2 with hcurrent | hcurrent <;>
      simp [State.addRef, hcurrent, hpc, Pc.dropped]
  refine ⟨h.window, fun w old hw => ?_, fun w hw => ?_, fun p hp => ?_, fun n => ?_, fun p => ?_⟩
  · have hcwd := h.reads w old hw
    have hne : w.1 ≠ child := by
      intro heq
      rw [heq, hnone] at hcwd
      cases hcwd
    simpa [State.addRef, hne] using hcwd
  · have hold := h.alive w hw
    have hne : w.1 ≠ child := by
      intro heq
      rw [heq, hunused] at hold
      cases hold
    simpa [hne] using hold
  · have hne : p ≠ child := by
      intro heq
      simp [heq] at hp
    simpa [State.addRef, hne] using
      h.clear p (by simpa [hne] using hp)
  · have hpre := h.refs n
    have hupdate := pointers_update s.cwd child (some ip) n
    rw [hnone, one_none] at hupdate
    rw [hheld] at hpre
    rw [hheld']
    by_cases hn : n = ip
    · subst hn
      simp only [State.record, State.setCwd, State.addRef, update_self, one_self] at hupdate ⊢
      omega
    · simp only [State.record, State.setCwd, State.addRef, update_of_ne hn,
        one_ne (Ne.symm hn)] at hupdate ⊢
      omega
  · rw [hheld']
    have hbooks := h.books p
    rw [hheld] at hbooks
    by_cases hp : p = child
    · subst hp
      rw [hnone] at hbooks
      rw [update_self]
      exact account_take_self hbooks
    · rw [update_of_ne hp, ← hbooks]
      exact if_neg (Ne.symm hp)

theorem inv_call {c : Call} (hpc : s.pc t = .user)
    (hcall : call s t c = some s') : Inv s' := by
  cases c with
  | chdir | lookup =>
    cases hcall
    exact h.same hrun hpc rfl rfl rfl rfl
  | fork child =>
    obtain ⟨hunused, hcall⟩ := Option.ite_none_right_eq_some.mp hcall
    obtain ⟨ip, _, rfl⟩ := Option.map_eq_some_iff.mp hcall
    have hne : t.1 ≠ child := by
      intro heq
      have hstate := h.alive t hrun.1
      rw [heq, hunused] at hstate
      cases hstate
    apply (inv_idup h hrun hpc hunused ip).spawn (t := t) hrun hpc
    · intro heq
      exact hne (by rw [← heq])
    · simp
  | exit =>
    obtain ⟨_, hcall⟩ := Option.ite_none_left_eq_some.mp hcall
    cases hcall
    exact h.same hrun hpc rfl rfl rfl rfl
  | kthreadCreate i =>
    obtain ⟨hdead, hcall⟩ := Option.ite_none_left_eq_some.mp hcall
    cases hcall
    apply h.spawn hrun hpc
    · intro heq
      rw [heq] at hdead
      exact hdead hrun.1
    · exact h.alive t hrun.1

theorem Inv.walk_addRef {before : Pc} {ip : Nat} {n : Int}
    (hbefore : s.pc t = before) (hpc : before.window = false) (hpc' : pc.window = false)
    (hsame : ((one pc.first ip + one pc.second ip : Nat) : Int) ≤
      n + ((one before.first ip + one before.second ip : Nat) : Int))
    (hother : ∀ m, m ≠ ip → one pc.first m + one pc.second m ≤
      one before.first m + one before.second m) : Inv ((s.addRef ip n).enter t pc) := by
  apply h.walk hrun _ hbefore hpc hpc'
  intro m
  by_cases hm : m = ip
  · subst hm
    rw [update_self]
    omega
  · have hle := hother m hm
    rw [update_of_ne hm]
    omega

theorem inv_start {job : Job} {absolute : Bool}
    (hpc : s.pc t = .beginOp job) (hstart : start s t job absolute = some s') : Inv s' := by
  have hwalk : ∀ ip, Inv ((s.addRef ip 1).enter t (.walk job ip)) := by
    intro ip
    apply h.walk_addRef hrun hpc rfl rfl
    · simp [Pc.first]
    · intro m hm
      simp [Pc.first, one_ne (Ne.symm hm)]
  simp only [start] at hstart
  split at hstart
  · cases hstart
    exact hwalk rootino
  · obtain ⟨ip, _, rfl⟩ := Option.map_eq_some_iff.mp hstart
    exact hwalk ip

theorem inv_find {job : Job} (hpc : s.pc t = .walk job ip)
    (next : Option Nat) : Inv (find s t job ip next) := by
  cases next with
  | none => exact h.same hrun hpc rfl rfl rfl rfl
  | some next =>
    apply h.walk_addRef hrun hpc rfl rfl
    · simp only [Pc.first, Pc.second, one_self, one_none]
      omega
    · intro m hm
      simp [Pc.first, one_ne (Ne.symm hm)]

theorem inv_go (hgo : go s t (s.pc t) = some s') : Inv s' := by
  cases hpc : s.pc t with
  | user | beginOp job | walk job ip | chdir ip => simp [go, hpc] at hgo
  | pass job ip next =>
    rw [hpc] at hgo
    cases hgo
    apply h.walk_addRef hrun hpc rfl rfl
    · simp [Pc.first]
    · intro m hm
      simp [Pc.first]
  | drop ip =>
    rw [hpc] at hgo
    cases hgo
    apply h.walk_addRef hrun hpc rfl rfl
    · simp [Pc.first]
    · intro m hm
      simp [Pc.first]
  | endOp =>
    rw [hpc] at hgo
    cases hgo
    exact h.same hrun hpc rfl rfl rfl rfl
  | chdirPut ip old =>
    rw [hpc] at hgo
    cases hgo
    exact h.put hrun (.inr ⟨ip, hpc⟩) rfl (by rw [hpc]; rfl)
  | chdirEnd ip =>
    rw [hpc] at hgo
    cases hgo
    exact inv_chdirEnd h hrun hpc
  | exitBegin =>
    rw [hpc] at hgo
    obtain ⟨old, hcwd, rfl⟩ := Option.map_eq_some_iff.mp hgo
    exact h.read hrun hpc rfl hcwd (.inl rfl) rfl rfl
  | exitPut old =>
    rw [hpc] at hgo
    cases hgo
    exact h.put hrun (.inl hpc) rfl (by rw [hpc]; rfl)
  | exitEnd =>
    rw [hpc] at hgo
    cases hgo
    exact inv_exitDone h hrun hpc

theorem inv_act {a : Act} (ha : a.thread = some t)
    (hact : act s a = some s') : Inv s' := by
  cases a with
  | call u c =>
    cases ha
    obtain ⟨hpc, hcall⟩ := Option.ite_none_right_eq_some.mp hact
    exact inv_call h hrun hpc hcall
  | start u absolute =>
    cases ha
    simp only [act] at hact
    split at hact
    · rename_i hpc
      exact inv_start h hrun hpc hact
    · cases hact
  | find u next =>
    cases ha
    simp only [act] at hact
    split at hact
    · rename_i hpc
      cases hact
      exact inv_find h hrun hpc next
    · cases hact
  | arrive u =>
    cases ha
    simp only [act] at hact
    split at hact
    · rename_i job ip hpc
      cases hact
      cases job <;> exact h.same hrun hpc rfl rfl rfl rfl
    · cases hact
  | check u isDir =>
    cases ha
    simp only [act] at hact
    split at hact
    · rename_i ip hpc
      simp only [check] at hact
      split at hact
      · obtain ⟨old, hcwd, rfl⟩ := Option.map_eq_some_iff.mp hact
        exact h.read hrun hpc rfl hcwd (.inr ⟨ip, rfl⟩) rfl rfl
      · cases hact
        exact h.same hrun hpc rfl rfl rfl rfl
    · cases hact
  | go u =>
    cases ha
    exact inv_go h hrun hact
  | sleep u => cases hact
  | wait p => cases ha

end

/-- `sys_chdir` and `exit` do not sleep between `iput(proc->cwd)` and the store. -/
def swift (s : State) : Act → Bool
  | .sleep t => !(s.pc t).window
  | _ => true

theorem inv_step {a : Act} (h : Inv s) (hswift : swift s a = true) (hstep : step s a = some s') :
    Inv s' := by
  cases a with
  | sleep t =>
    obtain ⟨hcurrent, rfl⟩ := taken hstep
    have hpc : (s.pc t).window = false := by simpa [swift] using hswift
    have hquiet : ∀ u, (s.pc u).window = false := by
      intro u
      by_contra hwindow
      have hu := h.window u (by simpa using hwindow)
      rw [hcurrent] at hu
      exact hwindow (Option.some.inj hu ▸ hpc)
    have hheld : s.held = s.cwd := by simp [hcurrent, not_dropped hpc]
    have hrefs := h.refs
    have hbooks := h.books
    rw [hheld] at hrefs hbooks
    exact ⟨fun u hu => by simp [hquiet u] at hu, h.reads, h.alive, h.clear, hrefs, hbooks⟩
  | wait p =>
    obtain ⟨⟨_, hzombie⟩, rfl⟩ := taken hstep
    refine ⟨h.window, h.reads, fun u hu => ?_, fun q hq => ?_, h.refs, h.books⟩
    · have hold := h.alive u hu
      have hne : u.1 ≠ p := by
        intro heq
        rw [heq, hzombie] at hold
        cases hold
      simpa [hne] using hold
    · by_cases hqp : q = p
      · exact h.clear q (by simp [hqp, hzombie])
      · exact h.clear q (by simpa [hqp] using hq)
  | call t c | start t absolute | find t next | arrive t | check t isDir | go t =>
    obtain ⟨hrun, hact⟩ := Option.ite_none_right_eq_some.mp hstep
    exact inv_act h hrun rfl hact

/-- Every current directory has a reference of its own, beside those of the calls
in progress, and each reference that became one of a current directory has been
dropped exactly once or is the one behind it now. -/
structure CwdHeld (s : State) : Prop where
  held : ∀ p ip, s.cwd p = some ip → 0 < s.ref ip
  refs : ∀ ip, ((pointers s.cwd ip + pointers (fun t => (s.pc t).first) ip +
    pointers (fun t => (s.pc t).second) ip : Nat) : Int) ≤ s.ref ip
  once : ∀ p, account p s.log = some (s.cwd p)

theorem Inv.cwdHeld (h : Inv s) (hnone : s.current = none) : CwdHeld s := by
  have hheld : s.held = s.cwd := by simp [hnone]
  have hrefs := h.refs
  have hbooks := h.books
  rw [hheld] at hrefs hbooks
  refine ⟨fun p ip hcwd => ?_, hrefs, hbooks⟩
  have hpos := pointers_update s.cwd p none ip
  have hip := hrefs ip
  rw [hcwd, one_self, one_none] at hpos
  omega

/-- In every state at which all threads sleep or are in user space. -/
theorem cwd_holds_reference (labels : List Act) (final : State)
    (hrun : run step boot labels = some final)
    (hswift : Meets step (fun s a => swift s a = true) boot labels)
    (hidle : final.current = none) : CwdHeld final :=
  (run_invariant (fun _ _ _ => inv_step) inv_boot hswift hrun).cwdHeld hidle

/-- One thread changes the directory while another is in a lookup from the old
one; then a child is made and exits. -/
def moved : List Act :=
  [.call init0 (.kthreadCreate thread1), .call init1 .lookup, .start init1 false, .sleep init1,
    .call init0 .chdir, .sleep init0, .start init0 true, .find init0 (some 5), .sleep init0,
    .find init1 (some 6), .sleep init1, .go init0, .arrive init0, .check init0 true, .go init0,
    .go init0, .go init1, .arrive init1, .go init1, .go init1, .call init0 (.fork proc1),
    .call child0 .exit, .go child0, .go child0, .go child0, .wait proc1]

theorem cwd_holds_reference_moved :
    ∃ final, run step boot moved = some final ∧ final.cwd initproc = some 5 ∧
      final.ref rootino = 0 ∧ CwdHeld final := by
  obtain ⟨final, hrun, hcwd, href, hcurrent⟩ : ∃ final, run step boot moved = some final ∧
      final.cwd initproc = some 5 ∧ final.ref rootino = 0 ∧ final.current = none := by
    decide +kernel
  exact ⟨final, hrun, hcwd, href,
    cwd_holds_reference moved final hrun (by decide +kernel) hcurrent⟩

/-- A `chdir` to inode 5 sleeps in its last `end_op`. -/
def chdirAsleep : List Act :=
  [.call init0 (.kthreadCreate thread1), .call init0 .chdir, .start init0 true,
    .find init0 (some 5), .go init0, .arrive init0, .check init0 true, .go init0, .sleep init0]

/-- The root has no reference while it is the current directory; a `chdir` of the
other thread drops one that is not there, and what it took is lost when the first
one stores its own. -/
theorem cwd_reference_dropped_twice :
    (run step boot chdirAsleep).map (fun s => (s.cwd initproc, s.ref rootino, s.current)) =
        some (some rootino, 0, none) ∧
      (run step boot (chdirAsleep ++ [.call init1 .chdir, .start init1 false, .find init1 (some 6),
        .go init1, .arrive init1, .check init1 true, .go init1, .go init1, .go init0])).map
          (fun s => (s.cwd initproc, s.ref rootino, s.ref 6, account initproc s.log)) =
        some (some 5, -1, 1, none) := by
  decide +kernel

end Xv6.Cwd
