import Xv6.Vm.Kalloc

/-! The two-level page table of `vm.c`. A page table is the value stored in its
page. The kernel half of a directory is the same in every directory, so only
the pages that hold its tables are kept. -/
namespace Xv6.Vm

abbrev nptentries : Nat := 1024

/-- Number of directory entries, and of pages, below `KERNBASE`. -/
abbrev updes : Nat := 512
abbrev upages : Nat := updes * nptentries

/-- `PTE_W`, `PTE_U` and the new bit `PTE_SH`. -/
structure Flags where
  w : Bool
  u : Bool
  sh : Bool
deriving DecidableEq, Repr

/-- `PTE_ADDR`, `PTE_P` and the other flags of an entry. -/
structure Pte where
  ppn : Nat
  p : Bool
  flags : Flags
deriving DecidableEq, Repr

def Pte.zero : Pte := ⟨0, false, ⟨false, false, false⟩⟩

structure PageTable where
  page : Nat
  pte : Nat → Pte

/-- `page` holds the directory itself, `ktables` are the pages of the tables
that map the kernel. -/
structure PageDir where
  page : Nat
  pde : Nat → Option PageTable
  ktables : List Nat

def pdx (v : Nat) : Nat := v / nptentries
def ptx (v : Nat) : Nat := v % nptentries

def PageDir.lookup (d : PageDir) (v : Nat) : Option Pte :=
  (d.pde (pdx v)).map fun table => table.pte (ptx v)

def PageDir.setPte (d : PageDir) (v : Nat) (pte : Pte) : PageDir :=
  match d.pde (pdx v) with
  | none => d
  | some table =>
    let stored := { table with pte := Function.update table.pte (ptx v) pte }
    { d with pde := Function.update d.pde (pdx v) (some stored) }

/-- `walkpgdir(pgdir, va, 1)`: the directory with the required table, or
`false` when the table cannot be allocated. -/
def walkpgdir (m : Mem) (d : PageDir) (v : Nat) : Bool × PageDir × Mem :=
  match d.pde (pdx v) with
  | some _ => (true, d, m)
  | none =>
    match kalloc m with
    | (none, m) => (false, d, m)
    | (some q, m) =>
      let table : PageTable := ⟨q, fun _ => Pte.zero⟩
      (true, { d with pde := Function.update d.pde (pdx v) (some table) }, m)

/-- One turn of the loop of `mappages`. `none` is `panic("remap")`, `false` is
the return value -1. -/
def mapPage (m : Mem) (d : PageDir) (v q : Nat) (perm : Flags) : Option (Bool × PageDir × Mem) :=
  match walkpgdir m d v with
  | (false, d, m) => some (false, d, m)
  | (true, d, m) =>
    match d.lookup v with
    | none => none
    | some pte => if pte.p then none else some (true, d.setPte v ⟨q, true, perm⟩, m)

def mappagesLoop (perm : Flags) :
    Nat → Nat → Nat → PageDir → Mem → Option (Bool × PageDir × Mem)
  | 0, _, _, d, m => some (true, d, m)
  | n + 1, v, q, d, m =>
    match mapPage m d v q perm with
    | none => none
    | some (false, d, m) => some (false, d, m)
    | some (true, d, m) => mappagesLoop perm n (v + 1) (q + 1) d m

def mappages (m : Mem) (d : PageDir) (va size pa : Nat) (perm : Flags) :
    Option (Bool × PageDir × Mem) :=
  let first := va / pgsize
  let last := (va + size - 1) / pgsize
  mappagesLoop perm (last - first + 1) first (pa / pgsize) d m

/-- The page tables that the four entries of `kmap` need: those for
`KERNBASE..KERNBASE+PHYSTOP` and those for the devices above `DEVSPACE`. -/
def kernelTables : Nat :=
  phystop / (pgsize * nptentries) + (0x100000000 - devspace) / (pgsize * nptentries)

/-- `setupkvm` allocates the directory and, in the order of `kmap`, the tables
of the kernel half. On failure the pages taken so far are lost. -/
def setupkvm (m : Mem) : Option PageDir × Mem :=
  match kalloc m with
  | (none, m) => (none, m)
  | (some q, m) =>
    match kallocMany kernelTables m with
    | (none, m) => (none, m)
    | (some tables, m) => (some ⟨q, fun _ => none, tables⟩, m)

def PageDir.present (d : PageDir) (v : Nat) : Option Pte :=
  (d.lookup v).filter Pte.p

attribute [local simp] PageDir.present

def PageDir.maps (d : PageDir) (v : Nat) : Option Nat :=
  (d.present v).map Pte.ppn

theorem mappages_page (m : Mem) (d : PageDir) (v q : Nat) (perm : Flags) :
    mappages m d (v * pgsize) pgsize (q * pgsize) perm = mapPage m d v q perm := by
  have hpos : 0 < pgsize := by decide
  have hlast : (v * pgsize + pgsize - 1) / pgsize = v := by
    rw [Nat.add_sub_assoc hpos, Nat.mul_comm, Nat.mul_add_div hpos,
      Nat.div_eq_of_lt (by decide), Nat.add_zero]
  have hfirst : v * pgsize / pgsize = v := Nat.mul_div_cancel v hpos
  have hframe : q * pgsize / pgsize = q := Nat.mul_div_cancel q hpos
  unfold mappages
  simp only [hlast, hfirst, hframe, Nat.sub_self, Nat.zero_add]
  rw [mappagesLoop]
  cases mapPage m d v q perm with
  | none => rfl
  | some result =>
    obtain ⟨ok, d', m'⟩ := result
    cases ok <;> rfl

variable {v : Nat}

theorem pdx_ptx_inj {u : Nat} (hd : pdx u = pdx v) (ht : ptx u = ptx v) : u = v := by
  simp only [pdx, ptx, nptentries] at hd ht
  omega

variable {d : PageDir} {pte : Pte}

theorem lookup_setPte_self {old : Pte}
    (h : d.lookup v = some old) : (d.setPte v pte).lookup v = some pte := by
  obtain ⟨table, htable, _⟩ := Option.map_eq_some_iff.mp h
  simp [PageDir.lookup, PageDir.setPte, htable]

theorem lookup_setPte_of_ne {u : Nat} (h : u ≠ v) :
    (d.setPte v pte).lookup u = d.lookup u := by
  unfold PageDir.setPte
  cases htable : d.pde (pdx v) with
  | none => rfl
  | some table =>
    by_cases hd : pdx u = pdx v
    · have ht : ptx u ≠ ptx v := fun ht => h (pdx_ptx_inj hd ht)
      simp [PageDir.lookup, hd, htable, ht]
    · simp [PageDir.lookup, hd]

theorem setPte_tables (d : PageDir) (v : Nat) (pte : Pte) (i : Nat) :
    ((d.setPte v pte).pde i).map PageTable.page = (d.pde i).map PageTable.page := by
  unfold PageDir.setPte
  cases htable : d.pde (pdx v) with
  | none => rfl
  | some table =>
    by_cases hi : i = pdx v
    · subst hi
      simp [htable]
    · simp [hi]

@[simp] theorem setPte_page (d : PageDir) (v : Nat) (pte : Pte) :
    (d.setPte v pte).page = d.page := by
  unfold PageDir.setPte
  split <;> rfl

@[simp] theorem setPte_ktables (d : PageDir) (v : Nat) (pte : Pte) :
    (d.setPte v pte).ktables = d.ktables := by
  unfold PageDir.setPte
  split <;> rfl

theorem present_eq_some : d.present v = some pte ↔ d.lookup v = some pte ∧ pte.p = true := by
  simp [Option.filter_eq_some_iff]

theorem present_of_lookup_none (h : d.lookup v = none) :
    d.present v = none := by
  simp [h]

theorem present_of_not_p (h : d.lookup v = some pte)
    (hp : pte.p = false) : d.present v = none := by
  simp [h, hp]

theorem maps_eq_some {q : Nat} :
    d.maps v = some q ↔ ∃ pte, d.present v = some pte ∧ pte.ppn = q := by
  simp [PageDir.maps]

theorem maps_congr {d' : PageDir} (h : d'.present v = d.present v) :
    d'.maps v = d.maps v := by
  rw [PageDir.maps, h, PageDir.maps]

theorem present_setPte_of_ne {u : Nat} (h : u ≠ v) :
    (d.setPte v pte).present u = d.present u := by
  simp [lookup_setPte_of_ne h]

theorem present_setPte_self {old : Pte} (h : d.lookup v = some old)
    (hp : pte.p = true) : (d.setPte v pte).present v = some pte := by
  simp [lookup_setPte_self h, hp]

theorem present_setPte_zero : (d.setPte v Pte.zero).present v = none := by
  cases h : d.lookup v with
  | none =>
    have htable : d.pde (pdx v) = none := by simpa [PageDir.lookup] using h
    simp [PageDir.setPte, htable, h]
  | some old => simp [lookup_setPte_self h, Pte.zero]

end Xv6.Vm
