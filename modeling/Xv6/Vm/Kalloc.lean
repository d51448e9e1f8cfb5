import Mathlib.Tactic.Common

/-! Physical memory and its allocator, `kalloc.c`. A page is named by its
frame number, the physical address shifted by 12. -/
namespace Xv6.Vm

abbrev pgsize : Nat := 4096
abbrev kernbase : Nat := 0x80000000
abbrev phystop : Nat := 0xE000000
abbrev devspace : Nat := 0xFE000000

def pages (sz : Nat) : Nat :=
  (sz + pgsize - 1) / pgsize

theorem pages_eq (sz : Nat) : pages sz = (sz + 4095) / 4096 := by
  rw [pages, Nat.add_sub_assoc (by decide)]
  rfl

theorem pages_mono {oldsz newsz : Nat} (h : oldsz ≤ newsz) : pages oldsz ≤ pages newsz := by
  rw [pages_eq, pages_eq]
  omega

abbrev Page := Fin pgsize → UInt8

def zeroPage : Page := fun _ => 0

/-- `kmem` together with `page_counters` and the contents of the frames.
`kend` is the first frame above the kernel image. `kfailed` is not kernel
data: it records that some `kalloc` has returned 0. -/
structure Mem where
  kend : Nat
  freelist : List Nat
  counters : Nat → Int
  frame : Nat → Page
  kfailed : Bool

def Mem.setFrame (m : Mem) (q : Nat) (page : Page) : Mem :=
  { m with frame := Function.update m.frame q page }

def Mem.writeByte (m : Mem) (q : Nat) (off : Fin pgsize) (byte : UInt8) : Mem :=
  m.setFrame q (Function.update (m.frame q) off byte)

def Mem.setCounter (m : Mem) (q : Nat) (c : Int) : Mem :=
  { m with counters := Function.update m.counters q c }

def kalloc (m : Mem) : Option Nat × Mem :=
  match m.freelist with
  | [] => (none, { m with kfailed := true })
  | q :: rest => (some q, { m with freelist := rest })

/-- `none` is the panic for an address outside the allocator's range. The
freed page is filled with junk. -/
def kfree (m : Mem) (q : Nat) : Option Mem :=
  if q < m.kend ∨ phystop / pgsize ≤ q then none
  else some { m.setFrame q (fun _ => 1) with freelist := q :: m.freelist }

/-- Several `kalloc` calls in a row. When one fails, the pages taken by the
earlier ones are lost. -/
def kallocMany : Nat → Mem → Option (List Nat) × Mem
  | 0, m => (some [], m)
  | n + 1, m =>
    match kalloc m with
    | (none, m) => (none, m)
    | (some q, m) =>
      match kallocMany n m with
      | (none, m) => (none, m)
      | (some rest, m) => (some (q :: rest), m)

def kfreeMany : List Nat → Mem → Option Mem
  | [], m => some m
  | q :: rest, m => (kfree m q).bind (kfreeMany rest)

@[simp] theorem setFrame_counters (m : Mem) (q : Nat) (page : Page) :
    (m.setFrame q page).counters = m.counters := rfl
@[simp] theorem setCounter_freelist (m : Mem) (q : Nat) (c : Int) :
    (m.setCounter q c).freelist = m.freelist := rfl

theorem kalloc_some {m m' : Mem} {q : Nat} (h : kalloc m = (some q, m')) :
    ∃ rest, m.freelist = q :: rest ∧ m' = { m with freelist := rest } := by
  unfold kalloc at h
  split at h
  · cases h
  · rename_i p rest hfree
    cases h
    exact ⟨rest, hfree, rfl⟩

theorem kalloc_none {m m' : Mem} (h : kalloc m = (none, m')) :
    m.freelist = [] ∧ m' = { m with kfailed := true } := by
  unfold kalloc at h
  split at h
  · rename_i hfree
    cases h
    exact ⟨hfree, rfl⟩
  · cases h

theorem kfree_some {m m' : Mem} {q : Nat} (h : kfree m q = some m') :
    m' = { m.setFrame q (fun _ => 1) with freelist := q :: m.freelist } := by
  unfold kfree at h
  split at h
  · cases h
  · cases h
    rfl

end Xv6.Vm
