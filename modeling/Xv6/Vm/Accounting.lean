import Xv6.Lib.Ledger
import Xv6.Vm.Exec

/-! What each function of `vm.c` does to the books: the free list, the pages
the kernel uses for directories, tables and stacks, and the user pages with
their counters. `K` and `U` stand for the pages and mappings of everybody
else. -/
namespace Xv6.Vm
open Function Ledger

/-- The counters are taken through a reading: `effective` allows for the page of
`initcode`, whose counter is never set. -/
abbrev Books (read : ℤ → ℤ) (valid : Nat → Prop) (m : Mem) (K U : Nat → ℕ) : Prop :=
  Balanced read valid m.freelist K U m.counters

/-- The user mappings of a directory, counted by frame. -/
def PageDir.refs (d : PageDir) : Nat → ℕ :=
  tally upages d.maps

def PageDir.own (d : PageDir) : Nat → ℕ :=
  Pi.single d.page 1 + tally updes (fun i => (d.pde i).map PageTable.page) + listed d.ktables

/-- Entries that are not present are zero, and no table of the user half lies
above `KERNBASE`. -/
structure PageDir.Wf (d : PageDir) : Prop where
  clean : ∀ v pte, d.lookup v = some pte → pte.p = false → pte = Pte.zero
  low : ∀ i, updes ≤ i → d.pde i = none

/-- Every page mapped between `lo` and `hi` has a single mapping in `S`. -/
def Unshared (S : Nat → ℕ) (d : PageDir) (lo hi : Nat) : Prop :=
  ∀ v, lo ≤ v → v < hi → ∀ q, d.maps v = some q → S q = 1

theorem refs_congr {d d' : PageDir} (h : ∀ v, v < upages → d'.maps v = d.maps v) :
    d'.refs = d.refs :=
  tally_congr h

theorem refs_pos {d : PageDir} {q : Nat} : 0 < d.refs q ↔ ∃ v, v < upages ∧ d.maps v = some q :=
  tally_pos

variable {pte : Pte}

theorem refs_install {d d' : PageDir} {v : Nat} (hv : v < upages)
    (habsent : d.present v = none) (hentry : d'.present v = some pte)
    (hothers : ∀ u, u ≠ v → d'.present u = d.present u) :
    d'.refs = d.refs + Pi.single pte.ppn 1 := by
  refine tally_fill hv ?_ ?_ ?_
  · simp [PageDir.maps, habsent]
  · simp [PageDir.maps, hentry]
  · intro u hu
    exact maps_congr (hothers u hu)

theorem refs_setPte_zero {d : PageDir} {v : Nat} (hv : v < upages)
    (hentry : d.present v = some pte) :
    d.refs = (d.setPte v Pte.zero).refs + Pi.single pte.ppn 1 :=
  refs_install hv present_setPte_zero hentry fun _ hu => (present_setPte_of_ne hu).symm

theorem own_setPte (d : PageDir) (v : Nat) (pte : Pte) : (d.setPte v pte).own = d.own := by
  simp only [PageDir.own, setPte_page, setPte_ktables, setPte_tables]

theorem wf_setPte {d : PageDir} (hd : d.Wf) {v : Nat}
    (hpte : pte.p = false → pte = Pte.zero) : (d.setPte v pte).Wf where
  clean := by
    intro u old hold hp
    by_cases huv : u = v
    · subst huv
      cases hlookup : d.lookup u with
      | none =>
        have htable : d.pde (pdx u) = none := by simpa [PageDir.lookup] using hlookup
        rw [PageDir.setPte, htable] at hold
        exact hd.clean u old hold hp
      | some entry =>
        rw [lookup_setPte_self hlookup] at hold
        cases hold
        exact hpte hp
    · rw [lookup_setPte_of_ne huv] at hold
      exact hd.clean u old hold hp
  low := by
    intro i hi
    have h := setPte_tables d v pte i
    rw [hd.low i hi] at h
    simpa using h

theorem lookup_lt {d : PageDir} (hd : d.Wf) {v : Nat} (h : d.lookup v = some pte) :
    v < upages := by
  by_contra hv
  have hpdx : updes ≤ pdx v := by
    simp only [pdx, updes, upages, nptentries] at hv ⊢
    omega
  rw [PageDir.lookup, hd.low _ hpdx] at h
  cases h

theorem wf_present {d : PageDir} (hd : d.Wf) {v : Nat} (h : d.present v = some pte) :
    v < upages :=
  lookup_lt hd (present_eq_some.mp h).1

theorem pdx_lt {v : Nat} (hv : v < upages) : pdx v < updes := by
  simp only [pdx, updes, upages, nptentries] at hv ⊢
  omega

section Allocator

variable {read : ℤ → ℤ} {valid : Nat → Prop} {m m' : Mem} {K U : Nat → ℕ} {q : Nat}

theorem books_kalloc (hbooks : Books read valid m K U) (h : kalloc m = (some q, m')) :
    Books read valid m' (K + Pi.single q 1) U := by
  obtain ⟨rest, hfree, rfl⟩ := kalloc_some h
  refine Balanced.alloc ?_
  rw [← hfree]
  exact hbooks

theorem books_kalloc_none (hbooks : Books read valid m K U) (h : kalloc m = (none, m')) : Books read
    valid m' K U := by
  obtain ⟨_, rfl⟩ := kalloc_none h
  exact hbooks

theorem books_kfree (hbooks : Books read valid m (K + Pi.single q 1) U) (h : kfree m q = some m') :
    Books read valid m' K U := by
  rw [kfree_some h]
  exact hbooks.release

theorem books_kallocMany {n : Nat} {result : Option (List Nat)} (hbooks : Books read valid m K U)
    (h : kallocMany n m = (result, m')) :
    Books read valid m' (K + listed (result.getD [])) U := by
  induction n generalizing m K result m' with
  | zero =>
    cases h
    simpa using hbooks
  | succ n ih =>
    unfold kallocMany at h
    split at h
    · rename_i m1 hfail
      cases h
      simpa using books_kalloc_none hbooks hfail
    · rename_i x m1 hx
      have h1 := books_kalloc hbooks hx
      split at h
      · rename_i m2 hrest
        cases h
        have h2 := ih h1 hrest
        refine h2.mono ?_
        intro r
        simp
      · rename_i rest m2 hrest
        cases h
        have h2 := ih h1 hrest
        refine h2.congr ?_ (fun _ => rfl)
        intro r
        simp only [Option.getD_some, listed_cons, Pi.add_apply]
        omega

theorem books_kfreeMany {items : List Nat} (hbooks : Books read valid m (K + listed items) U)
    (h : kfreeMany items m = some m') : Books read valid m' K U := by
  induction items generalizing m with
  | nil =>
    cases h
    simpa using hbooks
  | cons x rest ih =>
    obtain ⟨m1, hx, hrest⟩ := Option.bind_eq_some_iff.mp h
    refine ih ?_ hrest
    refine books_kfree ?_ hx
    refine hbooks.congr ?_ (fun _ => rfl)
    intro r
    simp only [listed_cons, Pi.add_apply]
    omega

end Allocator

/-- From `m` to `m'` pages were only taken from the free list. -/
structure Mem.Took (m m' : Mem) : Prop where
  free : m'.freelist <:+ m.freelist
  frame : ∀ q, q ∉ m.freelist → m'.frame q = m.frame q
  failed : m'.kfailed = false → m.kfailed = false
  kend : m'.kend = m.kend

/-- From `m` to `m'` pages were only put on the free list. -/
structure Mem.Gave (m m' : Mem) : Prop where
  free : m.freelist <:+ m'.freelist
  frame : ∀ q, q ∉ m'.freelist → m'.frame q = m.frame q
  failed : m'.kfailed = m.kfailed
  kend : m'.kend = m.kend

section

variable {m m' m'' : Mem} {q : Nat}

theorem Mem.Took.refl (m : Mem) : m.Took m :=
  ⟨List.suffix_refl _, fun _ _ => rfl, fun h => h, rfl⟩

theorem Mem.Took.trans (h : m.Took m') (h' : m'.Took m'') : m.Took m'' where
  free := h'.free.trans h.free
  frame := by
    intro q hq
    rw [h'.frame q (fun hmem => hq (h.free.subset hmem)), h.frame q hq]
  failed := fun hf => h.failed (h'.failed hf)
  kend := h'.kend.trans h.kend

theorem Mem.Gave.refl (m : Mem) : m.Gave m :=
  ⟨List.suffix_refl _, fun _ _ => rfl, rfl, rfl⟩

theorem Mem.Gave.trans (h : m.Gave m') (h' : m'.Gave m'') : m.Gave m'' where
  free := h.free.trans h'.free
  frame := by
    intro q hq
    rw [h'.frame q hq, h.frame q (fun hmem => hq (h'.free.subset hmem))]
  failed := h'.failed.trans h.failed
  kend := h'.kend.trans h.kend

theorem took_kalloc {result : Option Nat} (h : kalloc m = (result, m')) : m.Took m' := by
  cases result with
  | none =>
    obtain ⟨_, rfl⟩ := kalloc_none h
    exact ⟨List.suffix_refl _, fun _ _ => rfl, fun hf => by simp at hf, rfl⟩
  | some q =>
    obtain ⟨rest, hfree, rfl⟩ := kalloc_some h
    refine ⟨?_, fun _ _ => rfl, fun hf => hf, rfl⟩
    rw [hfree]
    exact List.suffix_cons q rest

theorem Mem.Took.setFrame (h : m.Took m') (hq : q ∈ m.freelist) (page : Page) :
    m.Took (m'.setFrame q page) where
  free := h.free
  frame := by
    intro r hr
    have hne : r ≠ q := by
      rintro rfl
      exact hr hq
    rw [← h.frame r hr]
    exact update_of_ne hne _ _
  failed := h.failed
  kend := h.kend

theorem Mem.Took.setCounter (h : m.Took m') (c : Int) : m.Took (m'.setCounter q c) :=
  ⟨h.free, h.frame, h.failed, h.kend⟩

theorem took_kallocMany {n : Nat} {result : Option (List Nat)}
    (h : kallocMany n m = (result, m')) : m.Took m' := by
  induction n generalizing m result m' with
  | zero =>
    cases h
    exact Mem.Took.refl m
  | succ n ih =>
    unfold kallocMany at h
    split at h
    · rename_i m1 hfail
      cases h
      exact took_kalloc hfail
    · rename_i x m1 hx
      split at h <;> rename_i hrest <;> cases h
      · exact (took_kalloc hx).trans (ih hrest)
      · exact (took_kalloc hx).trans (ih hrest)

theorem gave_kfree (h : kfree m q = some m') : m.Gave m' := by
  rw [kfree_some h]
  refine ⟨List.suffix_cons q _, ?_, rfl, rfl⟩
  intro r hr
  have hne : r ≠ q := by
    rintro rfl
    exact hr List.mem_cons_self
  exact update_of_ne hne _ _

theorem gave_kfreeMany {items : List Nat} (h : kfreeMany items m = some m') : m.Gave m' := by
  induction items generalizing m with
  | nil =>
    cases h
    exact Mem.Gave.refl m'
  | cons x rest ih =>
    obtain ⟨m1, hx, hrest⟩ := Option.bind_eq_some_iff.mp h
    exact (gave_kfree hx).trans (ih hrest)

theorem gave_cowRelease (h : cowRelease m q = some m') : m.Gave m' := by
  unfold cowRelease at h
  simp only at h
  split at h
  · exact ⟨(gave_kfree h).free, (gave_kfree h).frame, (gave_kfree h).failed, (gave_kfree h).kend⟩
  · cases h
    exact ⟨List.suffix_refl _, fun _ _ => rfl, rfl, rfl⟩

end

/-- The directory after `walkpgdir` has added an empty table. -/
def PageDir.addTable (d : PageDir) (i q : Nat) : PageDir :=
  { d with pde := update d.pde i (some ⟨q, fun _ => Pte.zero⟩) }

attribute [local simp] PageDir.addTable

section

variable {m m' : Mem} {d d' : PageDir} {v q : Nat}

theorem walkpgdir_cases {ok : Bool} (h : walkpgdir m d v = (ok, d', m')) :
    (ok = true ∧ d' = d ∧ m' = m ∧ (d.pde (pdx v)).isSome = true) ∨
    (ok = false ∧ d' = d ∧ d.pde (pdx v) = none ∧ kalloc m = (none, m')) ∨
    ∃ x, ok = true ∧ d.pde (pdx v) = none ∧ kalloc m = (some x, m') ∧
      d' = d.addTable (pdx v) x := by
  unfold walkpgdir at h
  split at h
  · rename_i table htable
    cases h
    exact Or.inl ⟨rfl, rfl, rfl, by simp [htable]⟩
  · rename_i htable
    split at h
    · rename_i m1 hfail
      cases h
      exact Or.inr (Or.inl ⟨rfl, rfl, htable, hfail⟩)
    · rename_i x m1 hx
      cases h
      exact Or.inr (Or.inr ⟨x, rfl, htable, hx, rfl⟩)

variable {x : Nat}

theorem present_addTable (h : d.pde (pdx v) = none) (u : Nat) :
    (d.addTable (pdx v) x).present u = d.present u := by
  by_cases hu : pdx u = pdx v
  · simp [PageDir.present, PageDir.lookup, hu, h, Pte.zero]
  · simp [PageDir.present, PageDir.lookup, hu]

theorem own_addTable (h : d.pde (pdx v) = none) (hv : v < upages) :
    (d.addTable (pdx v) x).own = d.own + Pi.single x 1 := by
  have htally : tally updes (fun i => ((d.addTable (pdx v) x).pde i).map PageTable.page) =
      tally updes (fun i => (d.pde i).map PageTable.page) + Pi.single x 1 := by
    refine tally_fill (pdx_lt hv) ?_ ?_ ?_
    · simp [h]
    · simp
    · intro u hu
      simp [hu]
  funext r
  simp only [PageDir.own, htally, Pi.add_apply]
  simp only [PageDir.addTable]
  omega

theorem wf_addTable (hd : d.Wf) (hv : v < upages) :
    (d.addTable (pdx v) x).Wf where
  clean := by
    intro u pte hlookup hp
    by_cases hu : pdx u = pdx v
    · simp only [PageDir.lookup, PageDir.addTable, hu, update_self, Option.map_some,
        Option.some.injEq] at hlookup
      exact hlookup.symm
    · simp only [PageDir.lookup, PageDir.addTable, update_of_ne hu] at hlookup
      exact hd.clean u pte hlookup hp
  low := by
    intro i hi
    have hne : i ≠ pdx v := by
      have := pdx_lt hv
      omega
    simp only [PageDir.addTable, update_of_ne hne]
    exact hd.low i hi

/-- What a successful turn of `mappages` does: page `v` gets the entry, and a
missing table is taken from the free list. -/
structure Installed (m : Mem) (d : PageDir) (v q : Nat) (perm : Flags) (d' : PageDir)
    (m' : Mem) : Prop where
  absent : d.present v = none
  entry : d'.present v = some ⟨q, true, perm⟩
  others : ∀ u, u ≠ v → d'.present u = d.present u
  wf : d.Wf → v < upages → d'.Wf
  books : ∀ {read valid K U}, v < upages → Books read valid m (K + d.own) U →
    Books read valid m' (K + d'.own) U
  took : m.Took m'
  frame : m'.frame = m.frame
  counters : m'.counters = m.counters
  tables : ∀ i, (d'.pde i).isSome = ((d.pde i).isSome || decide (i = pdx v))
  free : (d.pde (pdx v)).isSome = true ∧ m'.freelist = m.freelist ∨
    (d.pde (pdx v)).isSome = false ∧ m.freelist.length = m'.freelist.length + 1

variable {perm : Flags}

theorem installed_setPte {old : Pte} (hold : d.lookup v = some old)
    (hp : old.p = false) : Installed m d v q perm (d.setPte v ⟨q, true, perm⟩) m where
  absent := present_of_not_p hold hp
  entry := present_setPte_self hold rfl
  others := fun _ hu => present_setPte_of_ne hu
  wf := fun hd _ => wf_setPte hd (by simp)
  books := by
    intro read valid K U _ h
    rwa [own_setPte]
  took := Mem.Took.refl m
  frame := rfl
  counters := rfl
  tables := by
    intro i
    have h := congrArg Option.isSome (setPte_tables d v ⟨q, true, perm⟩ i)
    simp only [Option.isSome_map] at h
    rw [h]
    by_cases hi : i = pdx v
    · subst hi
      obtain ⟨table, htable, _⟩ := Option.map_eq_some_iff.mp hold
      simp [htable]
    · simp [hi]
  free := by
    obtain ⟨table, htable, _⟩ := Option.map_eq_some_iff.mp hold
    simp [htable]

theorem Installed.of_addTable (htable : d.pde (pdx v) = none)
    (hx : kalloc m = (some x, m')) (h : Installed m' (d.addTable (pdx v) x) v q perm d' m') :
    Installed m d v q perm d' m' where
  absent := by rw [← present_addTable htable]; exact h.absent
  entry := h.entry
  others := fun u hu => (h.others u hu).trans (present_addTable htable u)
  wf := fun hd hv => h.wf (wf_addTable hd hv) hv
  books := by
    intro read valid K U hv hbooks
    refine h.books hv ?_
    rw [own_addTable htable hv, ← add_assoc]
    exact books_kalloc hbooks hx
  took := took_kalloc hx
  frame := by
    obtain ⟨rest, _, rfl⟩ := kalloc_some hx
    rfl
  counters := by
    obtain ⟨rest, _, rfl⟩ := kalloc_some hx
    rfl
  tables := by
    intro i
    rw [h.tables i]
    by_cases hi : i = pdx v
    · simp [hi]
    · simp [hi]
  free := by
    obtain ⟨rest, hfree, rfl⟩ := kalloc_some hx
    simp [htable, hfree]

theorem mapPage_cases {ok : Bool} (h : mapPage m d v q perm = some (ok, d', m')) :
    (ok = true ∧ Installed m d v q perm d' m') ∨
    (ok = false ∧ d' = d ∧ d.pde (pdx v) = none ∧ kalloc m = (none, m')) := by
  unfold mapPage at h
  split at h
  · rename_i d1 m1 hwalk
    cases h
    rcases walkpgdir_cases hwalk with ⟨hok, _⟩ | hfail | ⟨x, hok, _⟩
    · cases hok
    · exact Or.inr hfail
    · cases hok
  · rename_i d1 m1 hwalk
    split at h
    · cases h
    · rename_i old hold
      split at h
      · cases h
      · rename_i hp
        cases h
        have hset : Installed m' d1 v q perm (d1.setPte v ⟨q, true, perm⟩) m' :=
          installed_setPte hold (by simpa using hp)
        refine Or.inl ⟨rfl, ?_⟩
        rcases walkpgdir_cases hwalk with ⟨_, rfl, rfl, _⟩ | ⟨hok, _⟩ | ⟨x, _, htable, hx, rfl⟩
        · exact hset
        · cases hok
        · exact hset.of_addTable htable hx

end

end Xv6.Vm
