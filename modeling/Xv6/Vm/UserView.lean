import Xv6.Vm.Calm

/-! What user programs see: processes with private memory and no page faults.
An eager `fork` copies the parent's view. -/
namespace Xv6.Vm

/-- The contents of each mapped page, and whether user code may access it. -/
abbrev View := Nat → Option (Page × Bool)

@[ext] structure User where
  state : ProcState
  sz : Nat
  view : Option View
  parent : Option Slot
  killed : Bool

@[ext] structure Users where
  procs : Slot → User
  initproc : Slot

namespace Users

def setProc (s : Users) (p : Slot) (x : User) : Users :=
  { s with procs := Function.update s.procs p x }

@[simp] theorem setProc_self (s : Users) (p : Slot) (x : User) : (s.setProc p x).procs p = x := by
  simp [setProc]

theorem setProc_of_ne (s : Users) {p c : Slot} (x : User) (h : c ≠ p) :
    (s.setProc p x).procs c = s.procs c := by
  simp [setProc, h]

def unusedSlot (s : Users) : Option Slot :=
  (List.finRange nproc).find? fun p => (s.procs p).state = .unused

def zombieChild (s : Users) (p : Slot) : Option Slot :=
  (List.finRange nproc).find? fun c =>
    (s.procs c).parent = some p ∧ (s.procs c).state = .zombie

def fork (s : Users) (p : Slot) : Users × Outcome :=
  match s.unusedSlot with
  | none => (s, .failed)
  | some c =>
    (s.setProc c { s.procs c with
      state := .runnable, sz := (s.procs p).sz, view := (s.procs p).view, parent := some p },
      .child c)

def adopt (s : Users) (p : Slot) (x : User) : User :=
  if x.parent = some p then { x with parent := some s.initproc } else x

def exit (s : Users) (p : Slot) : Option Users :=
  if p = s.initproc then none
  else
    let procs := fun c => s.adopt p (s.procs c)
    some { s with procs := Function.update procs p { procs p with state := .zombie } }

def wait (s : Users) (p : Slot) : Users × Outcome :=
  match s.zombieChild p with
  | none =>
    (s, if (∃ c, (s.procs c).parent = some p) ∧ (s.procs p).killed = false then .blocked
      else .failed)
  | some c =>
    (s.setProc c { s.procs c with
      view := none, state := .unused, parent := none, killed := false }, .reaped c)

/-- The pages that `sbrk` adds hold zeros. -/
def sbrk (s : Users) (p : Slot) (n : Int) : Users × Outcome :=
  let x := s.procs p
  let sz := growSize x.sz n
  let grow := fun (view : View) v =>
    if pages x.sz ≤ v ∧ v < pages sz then some (zeroPage, true) else view v
  (s.setProc p { x with sz := sz, view := x.view.map grow }, growOut x.sz n)

def kill (s : Users) (p : Slot) : Option (Users × Outcome) :=
  ((s.setProc p { s.procs p with killed := true }).exit p).map fun s => (s, .killed)

def page (s : Users) (p : Slot) (va : Nat) : Option Page :=
  ((s.procs p).view.bind fun view => view (va / pgsize)).bind fun entry =>
    if entry.2 then some entry.1 else none

def load (s : Users) (p : Slot) (va : Nat) : Option (Users × Outcome) :=
  match s.page p va with
  | some page => some (s, .loaded (page (offset va)))
  | none => s.kill p

def store (s : Users) (p : Slot) (va : Nat) (byte : UInt8) : Option (Users × Outcome) :=
  match s.page p va with
  | some page =>
    let write := fun (view : View) =>
      Function.update view (va / pgsize) (some (Function.update page (offset va) byte, true))
    some (s.setProc p { s.procs p with view := (s.procs p).view.map write }, .stored)
  | none => s.kill p

/-- Only the calls of an eager machine, with address spaces that never shrink and
accesses below their size. -/
def act (s : Users) (p : Slot) : Act → Option (Users × Outcome)
  | .fork => some (s.fork p)
  | .exit => (s.exit p).map fun s => (s, .done)
  | .cowWait => some (s.wait p)
  | .sbrk n => if 0 ≤ n then some (s.sbrk p n) else none
  | .load va => if va < (s.procs p).sz then s.load p va else none
  | .store va byte => if va < (s.procs p).sz then s.store p va byte else none
  | _ => none

def step (s : Users) (label : Slot × Act) : Option (Users × Outcome) :=
  if (s.procs label.1).state = .runnable then s.act label.1 label.2 else none

end Users

def PageDir.view (d : PageDir) (m : Mem) : View :=
  fun v => (d.present v).map fun pte => (m.frame pte.ppn, pte.flags.u)

def Proc.user (x : Proc) (m : Mem) : User :=
  ⟨x.state, x.sz, x.pgdir.map fun d => d.view m, x.parent, x.killed⟩

/-- The view that the kernel's state implements. -/
def Machine.users (s : Machine) : Users :=
  ⟨fun p => (s.procs p).user s.mem, s.initproc⟩

section

variable {read : ℤ → ℤ} {valid : Nat → Prop} {s s' : Machine} {p : Slot} {d d' : PageDir}
    {m m' : Mem}

theorem users_unusedSlot (s : Machine) : s.users.unusedSlot = s.unusedSlot := rfl

theorem users_zombieChild (s : Machine) (p : Slot) : s.users.zombieChild p = s.zombieChild p := rfl

theorem users_eq {u : Users} (hprocs : ∀ x, (s.procs x).user s.mem = u.procs x)
    (hinit : s.initproc = u.initproc) : s.users = u :=
  Users.ext (funext hprocs) hinit

theorem view_congr (h : ∀ v pte, d.present v = some pte → m'.frame pte.ppn = m.frame pte.ppn) :
    d.view m' = d.view m := by
  funext v
  unfold PageDir.view
  cases hpte : d.present v with
  | none => rfl
  | some pte => rw [Option.map_some, Option.map_some, h v pte hpte]

theorem user_congr {x : Proc}
    (h : ∀ d v pte, x.pgdir = some d → d.present v = some pte → m'.frame pte.ppn = m.frame pte.ppn)
      : x.user m' = x.user m := by
  unfold Proc.user
  cases hd : x.pgdir with
  | none => rfl
  | some d => rw [Option.map_some, Option.map_some, view_congr (h d · · hd)]

theorem Inv.frame_free (h : Inv read valid s) {v : Nat} {pte : Pte}
    (hd : (s.procs p).pgdir = some d) (hpte : d.present v = some pte) :
    pte.ppn ∉ s.mem.freelist :=
  h.books.not_free_of_shared
    (maps_le_mapped hd (wf_present (h.wf p d hd) hpte) (maps_eq_some.mpr ⟨pte, hpte, rfl⟩))

theorem user_took (h : Inv read valid s) (p : Slot) (htook : s.mem.Took m) :
    (s.procs p).user m = (s.procs p).user s.mem :=
  user_congr fun _ _ _ hd hpte => htook.frame _ (h.frame_free hd hpte)

theorem user_gave (h : Inv read valid s) (p : Slot) (hgave : m.Gave s.mem) :
    (s.procs p).user s.mem = (s.procs p).user m :=
  user_congr fun _ _ _ hd hpte => hgave.frame _ (h.frame_free hd hpte)

end

end Xv6.Vm
