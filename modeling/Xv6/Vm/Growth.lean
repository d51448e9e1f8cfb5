import Xv6.Vm.Teardown

/-! Building address spaces: `setupkvm`, and the loops of `allocuvm`, `copyuvm`
and `cow_shareuvm` described by what one turn does. -/
namespace Xv6.Vm
open Ledger

/-- A directory as `setupkvm` leaves it. -/
structure PageDir.Fresh (d : PageDir) : Prop where
  wf : d.Wf
  empty : ∀ i, d.pde i = none

variable {result : Option PageDir}

section

variable {read : ℤ → ℤ} {valid : Nat → Prop} {m m' : Mem} {d : PageDir} {K U : Nat → ℕ}

theorem PageDir.Fresh.present (h : d.Fresh) (v : Nat) : d.present v = none := by
  simp [PageDir.present, PageDir.lookup, h.empty]

theorem PageDir.Fresh.refs (h : d.Fresh) : d.refs = 0 := by
  refine tally_none ?_
  intro v _
  simp [PageDir.maps, h.present]

theorem setupkvm_cases (h : setupkvm m = (result, m')) :
    (result = none ∧ ∃ q m1, kalloc m = (some q, m1) ∧
      kallocMany kernelTables m1 = (none, m')) ∨
    (result = none ∧ kalloc m = (none, m')) ∨
    ∃ q m1 tables, kalloc m = (some q, m1) ∧ kallocMany kernelTables m1 = (some tables, m') ∧
      result = some ⟨q, fun _ => none, tables⟩ := by
  unfold setupkvm at h
  split at h
  · rename_i m1 hfail
    cases h
    exact Or.inr (Or.inl ⟨rfl, hfail⟩)
  · rename_i q m1 hq
    split at h
    · rename_i m2 hfail
      cases h
      exact Or.inl ⟨rfl, q, m1, hq, hfail⟩
    · rename_i tables m2 htables
      cases h
      exact Or.inr (Or.inr ⟨q, m1, tables, hq, htables, rfl⟩)

theorem took_setupkvm (h : setupkvm m = (result, m')) : m.Took m' := by
  rcases setupkvm_cases h with ⟨_, q, m1, hq, hmany⟩ | ⟨_, hfail⟩ | ⟨q, m1, tables, hq, hmany, _⟩
  · exact (took_kalloc hq).trans (took_kallocMany hmany)
  · exact took_kalloc hfail
  · exact (took_kalloc hq).trans (took_kallocMany hmany)

theorem books_setupkvm_none (hbooks : Books read valid m K U) (h : setupkvm m = (none, m')) :
    Books read valid m' K U := by
  rcases setupkvm_cases h with ⟨_, q, m1, hq, hmany⟩ | ⟨_, hfail⟩ | ⟨q, m1, tables, _, _, hsome⟩
  · refine (books_kallocMany (books_kalloc hbooks hq) hmany).mono ?_
    intro r
    simp
  · exact books_kalloc_none hbooks hfail
  · cases hsome

theorem fresh_setupkvm (h : setupkvm m = (some d, m')) : d.Fresh := by
  rcases setupkvm_cases h with ⟨hnone, _⟩ | ⟨hnone, _⟩ | ⟨q, m1, tables, _, _, hsome⟩
  · cases hnone
  · cases hnone
  · cases hsome
    exact ⟨⟨fun v pte hlookup => by simp [PageDir.lookup] at hlookup, fun _ _ => rfl⟩, fun _ => rfl⟩

theorem books_setupkvm (hbooks : Books read valid m K U) (h : setupkvm m = (some d, m')) :
    Books read valid m' (K + d.own) (U + d.refs) := by
  rw [(fresh_setupkvm h).refs]
  rcases setupkvm_cases h with ⟨hnone, _⟩ | ⟨hnone, _⟩ | ⟨q, m1, tables, hq, hmany, hsome⟩
  · cases hnone
  · cases hnone
  · cases hsome
    have hempty : tally updes (fun _ => (none : Option PageTable).map PageTable.page) = 0 :=
      tally_none fun _ _ => rfl
    refine (books_kallocMany (books_kalloc hbooks hq) hmany).congr ?_ (fun r => by simp)
    intro r
    simp only [PageDir.own, Option.getD_some, Pi.add_apply, hempty, Pi.zero_apply]
    omega

theorem counters_kallocMany {n : Nat} {result : Option (List Nat)}
    (h : kallocMany n m = (result, m')) : m'.counters = m.counters := by
  induction n generalizing m result with
  | zero =>
    cases h
    rfl
  | succ n ih =>
    unfold kallocMany at h
    split at h
    · rename_i m1 hfail
      cases h
      obtain ⟨_, rfl⟩ := kalloc_none hfail
      rfl
    · rename_i q m1 hq
      obtain ⟨rest, _, hm1⟩ := kalloc_some hq
      split at h <;> rename_i hrest <;> cases h
      · rw [ih hrest, hm1]
      · rw [ih hrest, hm1]

theorem counters_setupkvm (h : setupkvm m = (some d, m')) : m'.counters = m.counters := by
  rcases setupkvm_cases h with ⟨hnone, _⟩ | ⟨hnone, _⟩ | ⟨q, m1, tables, hq, hmany, _⟩
  · cases hnone
  · cases hnone
  · obtain ⟨rest, _, hm1⟩ := kalloc_some hq
    rw [counters_kallocMany hmany, hm1]

theorem kallocMany_length {n : Nat} {items : List Nat} (h : kallocMany n m = (some items, m')) :
    m.freelist.length = n + m'.freelist.length := by
  induction n generalizing m items with
  | zero =>
    cases h
    simp
  | succ n ih =>
    unfold kallocMany at h
    split at h
    · cases h
    · rename_i q m1 hq
      obtain ⟨rest, hfree, rfl⟩ := kalloc_some hq
      split at h
      · cases h
      · rename_i others m2 hothers
        cases h
        have := ih hothers
        simp only at this
        rw [hfree, List.length_cons, this]
        omega

theorem setupkvm_length (h : setupkvm m = (some d, m')) :
    m.freelist.length = kernelTables + 1 + m'.freelist.length := by
  rcases setupkvm_cases h with ⟨hnone, _⟩ | ⟨hnone, _⟩ | ⟨q, m1, tables, hq, hmany, _⟩
  · cases hnone
  · cases hnone
  · obtain ⟨rest, hfree, rfl⟩ := kalloc_some hq
    have := kallocMany_length hmany
    simp only at this
    rw [hfree, List.length_cons, this]
    omega

theorem kallocMany_enough {n : Nat} (h : n ≤ m.freelist.length) :
    ∃ items m', kallocMany n m = (some items, m') := by
  induction n generalizing m with
  | zero => exact ⟨[], m, rfl⟩
  | succ n ih =>
    cases hfree : m.freelist with
    | nil =>
      rw [hfree] at h
      cases h
    | cons q rest =>
      have hkalloc : kalloc m = (some q, { m with freelist := rest }) := by simp [kalloc, hfree]
      rw [hfree, List.length_cons] at h
      obtain ⟨items, m', hitems⟩ := ih (m := { m with freelist := rest }) (by simpa using h)
      exact ⟨q :: items, m', by simp [kallocMany, hkalloc, hitems]⟩

theorem setupkvm_enough (h : kernelTables + 1 ≤ m.freelist.length) :
    ∃ d m', setupkvm m = (some d, m') := by
  cases hfree : m.freelist with
  | nil =>
    rw [hfree] at h
    cases h
  | cons q rest =>
    have hkalloc : kalloc m = (some q, { m with freelist := rest }) := by simp [kalloc, hfree]
    rw [hfree, List.length_cons] at h
    obtain ⟨items, m', hitems⟩ :=
      kallocMany_enough (m := { m with freelist := rest }) (n := kernelTables) (by simpa using h)
    exact ⟨⟨q, fun _ => none, items⟩, m', by simp [setupkvm, hkalloc, hitems]⟩

end

/-- Page `v` gets a page from the free list with the given contents and a
counter of 1. -/
structure NewPage (m : Mem) (d : PageDir) (v q : Nat) (page : Page) (perm : Flags)
    (d' : PageDir) (m' : Mem) : Prop where
  taken : q ∈ m.freelist
  absent : d.present v = none
  entry : d'.present v = some ⟨q, true, perm⟩
  others : ∀ u, u ≠ v → d'.present u = d.present u
  wf : d.Wf → v < upages → d'.Wf
  books : ∀ {read valid K U} [Reading read], v < upages →
    Books read valid m (K + d.own) (U + d.refs) → Books read valid m' (K + d'.own) (U + d'.refs)
  took : m.Took m'
  filled : m'.frame q = page

section

variable {read : ℤ → ℤ} {valid : Nat → Prop} {m m1 m2 : Mem} {d d' : PageDir} {K U : Nat → ℕ}
    {v q : Nat}
  {page : Page} {perm : Flags}

theorem NewPage.refs (h : NewPage m d v q page perm d' m2) (hv : v < upages) :
    d'.refs = d.refs + Pi.single q 1 :=
  refs_install hv h.absent h.entry h.others

theorem Installed.attach [Reading read] {m3 : Mem} (hinstall : Installed m1 d v q perm d' m2)
    (hv : v < upages) (hcounter : m3.counters q = 1)
    (hbooks : Books read valid m3 (K + Pi.single q 1 + d'.own) (U + d.refs)) :
    Books read valid m3 (K + d'.own) (U + d'.refs) := by
  rw [refs_install hv hinstall.absent hinstall.entry hinstall.others, ← add_assoc]
  refine Balanced.attach ?_ (by rw [hcounter]; exact Reading.one)
  refine hbooks.congr ?_ (fun _ => rfl)
  intro r
  simp only [Pi.add_apply]
  omega

theorem recount_owned {m : Mem} {c : Int} (hbooks : Books read valid m (K + Pi.single q 1 + d.own)
    U) : Books read valid (m.setCounter q c) (K + Pi.single q 1 + d.own) U := by
  refine hbooks.recount ?_
  simp only [Pi.add_apply, Pi.single_eq_same]
  omega

theorem books_kalloc_filled (hbooks : Books read valid m (K + d.own) U)
    (hq : kalloc m = (some q, m1)) (page : Page) :
    Books read valid (m1.setFrame q page) (K + Pi.single q 1 + d.own) U := by
  refine (books_kalloc hbooks hq).congr ?_ (fun _ => rfl)
  intro r
  simp only [Pi.add_apply]
  omega

theorem kalloc_mem (hq : kalloc m = (some q, m1)) : q ∈ m.freelist := by
  obtain ⟨rest, hfree, _⟩ := kalloc_some hq
  simp [hfree]

theorem newPage_copy (hq : kalloc m = (some q, m1))
    (hinstall : Installed ((m1.setFrame q page).setCounter q 1) d v q perm d' m2) :
    NewPage m d v q page perm d' m2 where
  taken := kalloc_mem hq
  absent := hinstall.absent
  entry := hinstall.entry
  others := hinstall.others
  wf := hinstall.wf
  books := by
    intro read valid K U _ hv hbooks
    refine hinstall.attach hv (by simp [hinstall.counters, Mem.setCounter]) (hinstall.books hv ?_)
    exact recount_owned (books_kalloc_filled hbooks hq page)
  took := (((took_kalloc hq).setFrame (kalloc_mem hq) page).setCounter 1).trans hinstall.took
  filled := by simp [hinstall.frame, Mem.setFrame, Mem.setCounter]

theorem newPage_alloc (hq : kalloc m = (some q, m1))
    (hinstall : Installed (m1.setFrame q page) d v q perm d' m2) :
    NewPage m d v q page perm d' (m2.setCounter q 1) where
  taken := kalloc_mem hq
  absent := hinstall.absent
  entry := hinstall.entry
  others := hinstall.others
  wf := hinstall.wf
  books := by
    intro read valid K U _ hv hbooks
    refine hinstall.attach hv (by simp [Mem.setCounter]) ?_
    exact recount_owned (hinstall.books hv (books_kalloc_filled hbooks hq page))
  took := (((took_kalloc hq).setFrame (kalloc_mem hq) page).trans hinstall.took).setCounter 1
  filled := by simp [hinstall.frame, Mem.setFrame, Mem.setCounter]

theorem Unshared.newPage {lo hi : Nat} (h : Unshared (U + d.refs) d lo hi) (hv : v < upages)
    (hbooks : Books read valid m K (U + d.refs)) (hnew : NewPage m d v q page perm d' m2) :
    Unshared (U + d'.refs) d' lo hi := by
  have hzero : (U + d.refs) q = 0 := by
    by_contra hne
    exact hbooks.not_free_of_shared (Nat.pos_of_ne_zero hne) hnew.taken
  intro u hlo hhi r hr
  rw [hnew.refs hv, ← add_assoc, Pi.add_apply]
  by_cases huv : u = v
  · obtain ⟨pte, hpte, hppn⟩ := maps_eq_some.mp hr
    rw [huv, hnew.entry] at hpte
    cases hpte
    simp only at hppn
    simp [← hppn, hzero]
  · rw [maps_congr (hnew.others u huv)] at hr
    have hone := h u hlo hhi r hr
    have hne : r ≠ q := by
      rintro rfl
      omega
    simp [hone, hne]

end

/-- A failed `kalloc`, where a page taken just before is lost. -/
structure Lost (m m' : Mem) : Prop where
  took : m.Took m'
  failed : m'.kfailed = true
  books : ∀ {read valid K U}, Books read valid m K U → Books read valid m' K U

theorem lost_kalloc {m m' : Mem} (h : kalloc m = (none, m')) : Lost m m' where
  took := took_kalloc h
  failed := by
    obtain ⟨_, rfl⟩ := kalloc_none h
    rfl
  books := fun hbooks => books_kalloc_none hbooks h

theorem lost_page {m m1 : Mem} {q : Nat} (hq : kalloc m = (some q, m1)) (page : Page) :
    Lost m { (m1.setFrame q page).setCounter q 1 with kfailed := true } where
  took := by
    have h := (took_kalloc hq).setFrame (kalloc_mem hq) page
    exact ⟨h.free, h.frame, fun hf => by simp at hf, h.kend⟩
  failed := rfl
  books := by
    intro read valid K U hbooks
    have hrecount : Books read valid (m1.setCounter q 1) (K + Pi.single q 1) U :=
      (books_kalloc hbooks hq).recount (by simp)
    exact hrecount.mono (fun r => by simp)

/-- A loop that gives `n` pages from `v` on new pages, with contents and flags
taken from `item`. It stops, or goes on without a page, after a failed
`kalloc`. -/
inductive Fills (item : Mem → Nat → Option (Page × Flags)) :
    Nat → Nat → PageDir → Mem → Bool → PageDir → Mem → Prop where
  | done {v d m} : Fills item 0 v d m true d m
  | stop {n v d m m'} (hlost : Lost m m') : Fills item (n + 1) v d m false d m'
  | lost {n v d m m1 ok d' m'} (hlost : Lost m m1)
      (hrest : Fills item n (v + 1) d m1 ok d' m') : Fills item (n + 1) v d m ok d' m'
  | page {n v d m q page perm d1 m1 ok d' m'} (hitem : item m v = some (page, perm))
      (hnew : NewPage m d v q page perm d1 m1)
      (hrest : Fills item n (v + 1) d1 m1 ok d' m') : Fills item (n + 1) v d m ok d' m'

theorem allocLoop_fills {n v : Nat} {d d' : PageDir} {m m' : Mem} {ok : Bool}
    (h : allocLoop n v d m = some (ok, d', m')) :
    Fills (fun _ _ => some (zeroPage, userFlags)) n v d m ok d' m' := by
  induction n generalizing v d m with
  | zero =>
    cases h
    exact .done
  | succ n ih =>
    unfold allocLoop at h
    split at h
    · rename_i m1 hfail
      cases h
      exact .stop (lost_kalloc hfail)
    · rename_i q m1 hq
      rw [mappages_page] at h
      split at h
      · cases h
      · rename_i ok1 d1 m2 hmap
        rcases mapPage_cases hmap with ⟨_, hinstall⟩ | ⟨_, rfl, _, hfail⟩
        · exact .page rfl (newPage_alloc hq hinstall) (ih h)
        · obtain ⟨_, rfl⟩ := kalloc_none hfail
          exact .lost (lost_page hq zeroPage) (ih h)

def copyItem (src : PageDir) (m : Mem) (v : Nat) : Option (Page × Flags) :=
  (src.present v).map fun pte => (m.frame pte.ppn, pte.flags)

variable {src : PageDir}

theorem copyLoop_fills {n v : Nat} {d d' : PageDir} {m m' : Mem} {ok : Bool}
    (h : copyLoop src n v d m = some (ok, d', m')) :
    Fills (copyItem src) n v d m ok d' m' := by
  induction n generalizing v d m with
  | zero =>
    cases h
    exact .done
  | succ n ih =>
    unfold copyLoop at h
    split at h
    · cases h
    · rename_i pte hlookup
      split at h
      · rename_i hp
        have hitem : copyItem src m v = some (m.frame pte.ppn, pte.flags) := by
          simp [copyItem, present_eq_some.mpr ⟨hlookup, hp⟩]
        split at h
        · rename_i m1 hfail
          cases h
          exact .stop (lost_kalloc hfail)
        · rename_i q m1 hq
          have hframe : m1.frame = m.frame := by
            obtain ⟨rest, _, rfl⟩ := kalloc_some hq
            rfl
          simp only [mappages_page, hframe] at h
          split at h
          · cases h
          · rename_i d1 m2 hmap
            cases h
            rcases mapPage_cases hmap with ⟨hok, _⟩ | ⟨_, rfl, _, hfail⟩
            · cases hok
            · obtain ⟨_, rfl⟩ := kalloc_none hfail
              exact .stop (lost_page hq _)
          · rename_i d1 m2 hmap
            rcases mapPage_cases hmap with ⟨_, hinstall⟩ | ⟨hok, _⟩
            · exact .page hitem (newPage_copy hq hinstall) (ih h)
            · cases hok
      · cases h

section

variable {read : ℤ → ℤ} {valid : Nat → Prop} {item : Mem → Nat → Option (Page × Flags)} {n v : Nat}
    {d d' : PageDir}
  {m m' : Mem} {ok : Bool} {K U : Nat → ℕ}

theorem Fills.took (h : Fills item n v d m ok d' m') : m.Took m' := by
  induction h with
  | done => exact Mem.Took.refl _
  | stop hlost => exact hlost.took
  | lost hlost _ ih => exact hlost.took.trans ih
  | page _ hnew _ ih => exact hnew.took.trans ih

theorem Fills.ok_of_not_failed (h : Fills item n v d m ok d' m') (hfailed : m'.kfailed = false) :
    ok = true := by
  induction h with
  | done => rfl
  | stop hlost =>
    rw [hlost.failed] at hfailed
    cases hfailed
  | lost _ _ ih | page _ _ _ ih => exact ih hfailed

theorem Fills.failed (h : Fills item n v d m false d' m') : m'.kfailed = true := by
  by_contra hfailed
  cases h.ok_of_not_failed (by simpa using hfailed)

section

variable (h : Fills item n v d m ok d' m')
include h

theorem Fills.outside {u : Nat} (hu : u < v ∨ v + n ≤ u) :
    d'.present u = d.present u := by
  induction h with
  | done | stop => rfl
  | lost _ _ ih => exact ih (by omega)
  | page _ hnew _ ih => rw [ih (by omega), hnew.others u (by omega)]

theorem Fills.wf (hd : d.Wf) (hv : v + n ≤ upages) :
    d'.Wf := by
  induction h with
  | done | stop => exact hd
  | lost _ _ ih => exact ih hd (by omega)
  | page _ hnew _ ih => exact ih (hnew.wf hd (by omega)) (by omega)

theorem Fills.books [Reading read] (hv : v + n ≤ upages)
    (hbooks : Books read valid m (K + d.own) (U + d.refs)) :
    Books read valid m' (K + d'.own) (U + d'.refs) := by
  induction h with
  | done => exact hbooks
  | stop hlost => exact hlost.books hbooks
  | lost hlost _ ih => exact ih (by omega) (hlost.books hbooks)
  | page _ hnew _ ih => exact ih (by omega) (hnew.books (by omega) hbooks)

theorem Fills.unshared [Reading read] {lo hi : Nat}
    (hv : v + n ≤ upages) (hbooks : Books read valid m (K + d.own) (U + d.refs))
    (hunshared : Unshared (U + d.refs) d lo hi) : Unshared (U + d'.refs) d' lo hi := by
  induction h with
  | done | stop => exact hunshared
  | lost hlost _ ih => exact ih (by omega) (hlost.books hbooks) hunshared
  | page _ hnew _ ih =>
    exact ih (by omega) (hnew.books (by omega) hbooks)
      (hunshared.newPage (by omega) hbooks hnew)

theorem Fills.refs_old (hv : v + n ≤ upages) {r : Nat}
    (hr : r ∉ m.freelist) : d'.refs r = d.refs r := by
  induction h with
  | done | stop => rfl
  | lost hlost _ ih => exact ih (by omega) (fun hmem => hr (hlost.took.free.subset hmem))
  | @page n v d m q page perm d1 m1 ok d' m' hitem hnew _ ih =>
    have hne : r ≠ q := by
      rintro rfl
      exact hr hnew.taken
    rw [ih (by omega) (fun hmem => hr (hnew.took.free.subset hmem)), hnew.refs (by omega)]
    simp [hne]

theorem Fills.absent (hfailed : m'.kfailed = false) {u : Nat}
    (hlo : v ≤ u) (hhi : u < v + n) : d.present u = none := by
  induction h with
  | done => omega
  | stop hlost =>
    rw [hlost.failed] at hfailed
    cases hfailed
  | lost hlost hrest _ =>
    have hearlier := hrest.took.failed hfailed
    rw [hlost.failed] at hearlier
    cases hearlier
  | @page n v d m q page perm d1 m1 ok d' m' hitem hnew _ ih =>
    by_cases huv : u = v
    · rw [huv, hnew.absent]
    · rw [← hnew.others u huv]
      exact ih hfailed (by omega) (by omega)

/-- Without a failed `kalloc` every page of the range is new, and keeps its
contents while the rest is filled. -/
theorem Fills.entry [Reading read] (hv : v + n ≤ upages)
    (hbooks : Books read valid m (K + d.own) (U + d.refs)) (hfailed : m'.kfailed = false) {u : Nat}
    (hlo : v ≤ u) (hhi : u < v + n) :
    ∃ q m1 page perm, m.Took m1 ∧ q ∈ m.freelist ∧ item m1 u = some (page, perm) ∧
      d'.present u = some ⟨q, true, perm⟩ ∧ m'.frame q = page := by
  induction h with
  | done => omega
  | stop hlost =>
    rw [hlost.failed] at hfailed
    cases hfailed
  | lost hlost hrest _ =>
    have hearlier := hrest.took.failed hfailed
    rw [hlost.failed] at hearlier
    cases hearlier
  | @page n v d m q page perm d1 m1 ok d' m' hitem hnew hrest ih =>
    have hbooks1 := hnew.books (by omega) hbooks
    by_cases huv : u = v
    · subst huv
      refine ⟨q, m, page, perm, Mem.Took.refl m, hnew.taken, hitem, ?_, ?_⟩
      · rw [hrest.outside (by omega), hnew.entry]
      · have hmaps : d1.maps u = some q := by simp [PageDir.maps, hnew.entry]
        have hpos : 0 < (U + d1.refs) q := by
          have := refs_pos.mpr ⟨u, by omega, hmaps⟩
          simp only [Pi.add_apply]
          omega
        rw [hrest.took.frame q (hbooks1.not_free_of_shared hpos), hnew.filled]
    · obtain ⟨r, m2, page', perm', htook, hfree, hrest'⟩ :=
        ih (by omega) hbooks1 hfailed (by omega) (by omega)
      exact ⟨r, m2, page', perm', hnew.took.trans htook, hnew.took.free.subset hfree, hrest'⟩

end

end

section Calls

variable {read : ℤ → ℤ} {valid : Nat → Prop} {m m' : Mem} {d d' : PageDir} {K U : Nat → ℕ}
    {oldsz newsz sz : Nat}

theorem pages_le_upages (h : sz ≤ kernbase) : pages sz ≤ upages := by
  rw [← pages_kernbase]
  exact pages_mono h

theorem allocuvm_cases (h : allocuvm m d oldsz newsz = some (sz, d', m')) :
    (d' = d ∧ m' = m ∧ (kernbase ≤ newsz ∧ sz = 0 ∨ newsz < oldsz ∧ sz = oldsz)) ∨
    (oldsz ≤ newsz ∧ newsz < kernbase ∧ ∃ ok d1 m1,
      Fills (fun _ _ => some (zeroPage, userFlags)) (pages newsz - pages oldsz) (pages oldsz) d m ok
        d1 m1 ∧
      ((ok = true ∧ sz = newsz ∧ d' = d1 ∧ m' = m1) ∨
        (ok = false ∧ sz = 0 ∧ ∃ result, deallocuvm m1 d1 newsz oldsz = some
          (result, d', m')))) := by
  unfold allocuvm at h
  split at h
  · rename_i hbig
    cases h
    exact Or.inl ⟨rfl, rfl, Or.inl ⟨hbig, rfl⟩⟩
  · rename_i hbig
    split at h
    · rename_i hlt
      cases h
      exact Or.inl ⟨rfl, rfl, Or.inr ⟨hlt, rfl⟩⟩
    · rename_i hlt
      refine Or.inr ⟨by omega, by omega, ?_⟩
      split at h
      · cases h
      · rename_i d1 m1 hloop
        cases h
        exact ⟨true, _, _, allocLoop_fills hloop, Or.inl ⟨rfl, rfl, rfl, rfl⟩⟩
      · rename_i d1 m1 hloop
        split at h
        · cases h
        · rename_i result d2 m2 hdealloc
          cases h
          exact ⟨false, _, _, allocLoop_fills hloop, Or.inr ⟨rfl, rfl, result, hdealloc⟩⟩

theorem allocuvm_size (hold : oldsz ≤ kernbase) (h : allocuvm m d oldsz newsz = some (sz, d', m')) :
    sz ≤ kernbase := by
  rcases allocuvm_cases h with ⟨_, _, ⟨_, rfl⟩ | ⟨_, rfl⟩⟩ | ⟨_, hlt, ok, d1, m1, _, hend⟩
  · omega
  · exact hold
  · rcases hend with ⟨_, rfl, _⟩ | ⟨_, rfl, _⟩ <;> omega

theorem wf_allocuvm (hd : d.Wf) (h : allocuvm m d oldsz newsz = some (sz, d', m')) : d'.Wf := by
  rcases allocuvm_cases h with ⟨rfl, _, _⟩ | ⟨hle, hlt, ok, d1, m1, hfills, hend⟩
  · exact hd
  · have hmono := pages_mono hle
    have hupages := pages_le_upages (Nat.le_of_lt hlt)
    have hd1 := hfills.wf hd (by omega)
    rcases hend with ⟨_, _, rfl, _⟩ | ⟨_, _, result, hdealloc⟩
    · exact hd1
    · rcases unmapRange_cases hdealloc with ⟨_, rfl, _⟩ | ⟨_, hloop⟩
      · exact hd1
      · exact hloop.wf hd1

/-- On failure `allocuvm` gives back everything between the two sizes, old
entries included. -/
theorem books_allocuvm [Reading read] (hbooks : Books read valid m (K + d.own) (U + d.refs))
    (hunshared : m'.kfailed = true → newsz < kernbase →
      Unshared (U + d.refs) d (pages oldsz) (pages newsz))
    (h : allocuvm m d oldsz newsz = some (sz, d', m')) :
    Books read valid m' (K + d'.own) (U + d'.refs) := by
  rcases allocuvm_cases h with ⟨rfl, rfl, _⟩ | ⟨hle, hlt, ok, d1, m1, hfills, hend⟩
  · exact hbooks
  · have hmono := pages_mono hle
    have hupages := pages_le_upages (Nat.le_of_lt hlt)
    have hbooks1 := hfills.books (by omega) hbooks
    rcases hend with ⟨_, _, rfl, rfl⟩ | ⟨rfl, _, result, hdealloc⟩
    · exact hbooks1
    · have hfailed : m'.kfailed = true := by
        rw [(gave_deallocuvm hdealloc).failed]
        exact hfills.failed
      have hunshared1 := hfills.unshared (by omega) hbooks (hunshared hfailed hlt)
      have hown : d'.own = d1.own := by
        rcases unmapRange_cases hdealloc with ⟨_, rfl, _⟩ | ⟨_, hloop⟩
        · rfl
        · exact hloop.own
      rw [hown]
      exact books_deallocuvm hbooks1 hupages hunshared1 hdealloc

theorem unshared_allocuvm [Reading read] (hbooks : Books read valid m (K + d.own) (U + d.refs))
    (hunshared : Unshared (U + d.refs) d 0 upages)
    (h : allocuvm m d oldsz newsz = some (sz, d', m')) : Unshared (U + d'.refs) d' 0 upages := by
  rcases allocuvm_cases h with ⟨rfl, _, _⟩ | ⟨hle, hlt, ok, d1, m1, hfills, hend⟩
  · exact hunshared
  · have hmono := pages_mono hle
    have hupages := pages_le_upages (Nat.le_of_lt hlt)
    have hunshared1 := hfills.unshared (by omega) hbooks hunshared
    rcases hend with ⟨_, _, rfl, _⟩ | ⟨_, _, result, hdealloc⟩
    · exact hunshared1
    · rcases unmapRange_cases hdealloc with ⟨_, rfl, _⟩ | ⟨_, hloop⟩
      · exact hunshared1
      · exact hloop.unshared le_rfl hunshared1

theorem unshared_fresh (h : d.Fresh) (S : Nat → ℕ) (lo hi : Nat) : Unshared S d lo hi := by
  intro v _ _ q hq
  simp [PageDir.maps, h.present] at hq

theorem copyuvm_cases (h : copyuvm m src sz = some (result, m')) :
    (result = none ∧ setupkvm m = (none, m')) ∨
    ∃ d0 m0 ok d1 m1, setupkvm m = (some d0, m0) ∧
      Fills (copyItem src) (pages sz) 0 d0 m0 ok d1 m1 ∧
      ((ok = true ∧ result = some d1 ∧ m' = m1) ∨
        (ok = false ∧ result = none ∧ freevm m1 d1 = some m')) := by
  unfold copyuvm at h
  split at h
  · rename_i m0 hsetup
    cases h
    exact Or.inl ⟨rfl, hsetup⟩
  · rename_i d0 m0 hsetup
    refine Or.inr ⟨d0, m0, ?_⟩
    split at h
    · cases h
    · rename_i d1 m1 hloop
      cases h
      exact ⟨true, _, _, hsetup, copyLoop_fills hloop, Or.inl ⟨rfl, rfl, rfl⟩⟩
    · rename_i d1 m1 hloop
      obtain ⟨m2, hfree, hresult⟩ := Option.map_eq_some_iff.mp h
      cases hresult
      exact ⟨false, _, _, hsetup, copyLoop_fills hloop, Or.inr ⟨rfl, rfl, hfree⟩⟩

theorem books_copyuvm [Reading read]
    (hsz : pages sz ≤ upages) (hbooks : Books read valid m K U)
    (h : copyuvm m src sz = some (result, m')) :
    match result with
    | none => Books read valid m' K U
    | some d => d.Wf ∧ Books read valid m' (K + d.own) (U + d.refs) := by
  rcases copyuvm_cases h with ⟨rfl, hsetup⟩ | ⟨d0, m0, ok, d1, m1, hsetup, hfills, hend⟩
  · exact books_setupkvm_none hbooks hsetup
  · have hfresh := fresh_setupkvm hsetup
    have hbooks0 := books_setupkvm hbooks hsetup
    have hbooks1 := hfills.books (by omega) hbooks0
    rcases hend with ⟨_, rfl, rfl⟩ | ⟨_, rfl, hfree⟩
    · exact ⟨hfills.wf hfresh.wf (by omega), hbooks1⟩
    · refine books_freevm hbooks1 ?_ hfree
      exact hfills.unshared (by omega) hbooks0 (unshared_fresh hfresh _ _ _)

end Calls

end Xv6.Vm
