import Xv6.Vm.PageTable

/-! The functions of `vm.c` that build, share, copy and tear down the user part
of an address space. Sizes are in bytes, `v` counts virtual pages. A result
`none` is a panic. -/
namespace Xv6.Vm

/-- The loop of `deallocuvm` and `cow_deallocuvm` from page `v` to page `last`.
A missing page table advances `a` by a whole table from where it stands. The
fuel is the number of pages left. -/
def unmapLoop (release : Mem → Nat → Option Mem) :
    Nat → Nat → Nat → PageDir → Mem → Option (PageDir × Mem)
  | 0, _, _, d, m => some (d, m)
  | fuel + 1, v, last, d, m =>
    if last ≤ v then some (d, m)
    else match d.lookup v with
      | none => unmapLoop release fuel (v + nptentries) last d m
      | some pte =>
        if pte.p then
          if pte.ppn = 0 then none
          else match release m pte.ppn with
            | none => none
            | some m => unmapLoop release fuel (v + 1) last (d.setPte v Pte.zero) m
        else unmapLoop release fuel (v + 1) last d m

def unmapRange (release : Mem → Nat → Option Mem) (m : Mem) (d : PageDir) (oldsz newsz : Nat) :
    Option (Nat × PageDir × Mem) :=
  if oldsz ≤ newsz then some (oldsz, d, m)
  else
    (unmapLoop release (pages oldsz - pages newsz) (pages newsz) (pages oldsz) d m).map
      fun result => (newsz, result)

/-- `page_counters[..]--`, and `kfree` when that gives 0. -/
def cowRelease (m : Mem) (q : Nat) : Option Mem :=
  let m := m.setCounter q (m.counters q - 1)
  if m.counters q = 0 then kfree m q else some m

def deallocuvm : Mem → PageDir → Nat → Nat → Option (Nat × PageDir × Mem) :=
  unmapRange kfree

def cowDeallocuvm : Mem → PageDir → Nat → Nat → Option (Nat × PageDir × Mem) :=
  unmapRange cowRelease

/-- The pages of the tables in the order of the directory, kernel half last. -/
def PageDir.tables (d : PageDir) : List Nat :=
  (List.range updes).filterMap (fun i => (d.pde i).map PageTable.page) ++ d.ktables

def freevm (m : Mem) (d : PageDir) : Option Mem :=
  match deallocuvm m d kernbase 0 with
  | none => none
  | some (_, d, m) => kfreeMany (d.tables ++ [d.page]) m

def cowFreevm (m : Mem) (d : PageDir) : Option Mem :=
  match cowDeallocuvm m d kernbase 0 with
  | none => none
  | some (_, d, m) => kfreeMany (d.tables ++ [d.page]) m

def userFlags : Flags := ⟨true, true, false⟩

/-- The page loop of `allocuvm`; `false` when `kalloc` returns 0. The result of
`mappages` is not looked at: without a page table the new page is lost. -/
def allocLoop : Nat → Nat → PageDir → Mem → Option (Bool × PageDir × Mem)
  | 0, _, d, m => some (true, d, m)
  | n + 1, v, d, m =>
    match kalloc m with
    | (none, m) => some (false, d, m)
    | (some q, m) =>
      match mappages (m.setFrame q zeroPage) d (v * pgsize) pgsize (q * pgsize) userFlags with
      | none => none
      | some (_, d, m) => allocLoop n (v + 1) d (m.setCounter q 1)

def allocuvm (m : Mem) (d : PageDir) (oldsz newsz : Nat) : Option (Nat × PageDir × Mem) :=
  if kernbase ≤ newsz then some (0, d, m)
  else if newsz < oldsz then some (oldsz, d, m)
  else match allocLoop (pages newsz - pages oldsz) (pages oldsz) d m with
    | none => none
    | some (true, d, m) => some (newsz, d, m)
    | some (false, d, m) =>
      match deallocuvm m d newsz oldsz with
      | none => none
      | some (_, d, m) => some (0, d, m)

def copyLoop (src : PageDir) : Nat → Nat → PageDir → Mem → Option (Bool × PageDir × Mem)
  | 0, _, d, m => some (true, d, m)
  | n + 1, v, d, m =>
    match src.lookup v with
    | none => none
    | some pte =>
      if pte.p then
        match kalloc m with
        | (none, m) => some (false, d, m)
        | (some q, m) =>
          let m := (m.setFrame q (m.frame pte.ppn)).setCounter q 1
          match mappages m d (v * pgsize) pgsize (q * pgsize) pte.flags with
          | none => none
          | some (false, d, m) => some (false, d, m)
          | some (true, d, m) => copyLoop src n (v + 1) d m
      else none

def copyuvm (m : Mem) (src : PageDir) (sz : Nat) : Option (Option PageDir × Mem) :=
  match setupkvm m with
  | (none, m) => some (none, m)
  | (some d, m) =>
    match copyLoop src (pages sz) 0 d m with
    | none => none
    | some (true, d, m) => some (some d, m)
    | some (false, d, m) => (freevm m d).map fun m => (none, m)

def incCounter (m : Mem) (q : Nat) : Mem :=
  if m.counters q = 0 then m.setCounter q 2 else m.setCounter q (m.counters q + 1)

def Pte.share (pte : Pte) : Pte :=
  { pte with flags := { pte.flags with w := false, sh := true } }

def Pte.unshare (pte : Pte) : Pte :=
  { pte with flags := { pte.flags with w := true, sh := false } }

/-- The page loop of `cow_shareuvm` over the parent `src` and the child `d`. -/
def shareLoop : Nat → Nat → PageDir → PageDir → Mem →
    Option (Bool × PageDir × PageDir × Mem)
  | 0, _, src, d, m => some (true, src, d, m)
  | n + 1, v, src, d, m =>
    match src.lookup v with
    | none => none
    | some pte =>
      if pte.p then
        let src := src.setPte v pte.share
        match mappages m d (v * pgsize) pgsize (pte.ppn * pgsize) pte.share.flags with
        | none => none
        | some (false, d, m) => some (false, src, d, m)
        | some (true, d, m) => shareLoop n (v + 1) src d (incCounter m pte.ppn)
      else none

/-- The child's directory or 0, the parent's directory and the memory. -/
def cowShareuvm (m : Mem) (src : PageDir) (sz : Nat) :
    Option (Option PageDir × PageDir × Mem) :=
  match setupkvm m with
  | (none, m) => some (none, src, m)
  | (some d, m) =>
    match shareLoop (pages sz) 0 src d m with
    | none => none
    | some (true, src, d, m) => some (some d, src, m)
    | some (false, src, d, m) => (freevm m d).map fun m => (none, src, m)

/-- `cow_copyuvm` for the faulting address `va` in a process of size `sz`.
`false` is the return value 0. -/
def cowCopyuvm (m : Mem) (d : PageDir) (va sz : Nat) : Bool × PageDir × Mem :=
  match d.lookup (va / pgsize) with
  | none => (false, d, m)
  | some pte =>
    if pte.flags.sh = true ∧ va < sz then
      if 1 < m.counters pte.ppn then
        match kalloc m with
        | (none, m) => (false, d, m)
        | (some q, m) =>
          let m := (m.setFrame q (m.frame pte.ppn)).setCounter q 1
          let d := d.setPte (va / pgsize) { pte.unshare with ppn := q }
          (true, d, m.setCounter pte.ppn (m.counters pte.ppn - 1))
      else (true, d.setPte (va / pgsize) pte.unshare, m)
    else (false, d, m)

def inituvm (m : Mem) (d : PageDir) (init : Page) : Option (PageDir × Mem) :=
  match kalloc m with
  | (none, _) => none
  | (some q, m) =>
    match mappages (m.setFrame q init) d 0 pgsize (q * pgsize) userFlags with
    | none => none
    | some (_, d, m) => some (d, m)

def clearpteu (d : PageDir) (va : Nat) : Option PageDir :=
  match d.lookup (va / pgsize) with
  | none => none
  | some pte =>
    some (d.setPte (va / pgsize) { pte with flags := { pte.flags with u := false } })

end Xv6.Vm
