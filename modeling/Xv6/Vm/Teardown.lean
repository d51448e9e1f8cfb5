import Xv6.Vm.Accounting

/-! Taking address spaces apart. `deallocuvm` and `freevm` give every page back
to the allocator, `cow_deallocuvm` and `cow_freevm` only those that nobody else
maps: the first pair keeps the books only for pages that are not shared. -/
namespace Xv6.Vm
open Ledger

/-- The turns of the loop of `deallocuvm` and `cow_deallocuvm` from page `v`. -/
inductive Unmaps (release : Mem → Nat → Option Mem) (last : Nat) :
    Nat → PageDir → Mem → PageDir → Mem → Prop where
  | done {v d m} (hv : last ≤ v) : Unmaps release last v d m d m
  | skip {v d m d' m'} (hv : v < last) (hnone : d.pde (pdx v) = none)
      (hrest : Unmaps release last (v + nptentries) d m d' m') : Unmaps release last v d m d' m'
  | absent {v d m d' m'} (hv : v < last) (htable : (d.pde (pdx v)).isSome = true)
      (habsent : d.present v = none) (hrest : Unmaps release last (v + 1) d m d' m') :
      Unmaps release last v d m d' m'
  | page {v d m m1 d' m' pte} (hv : v < last) (hentry : d.present v = some pte)
      (hrelease : release m pte.ppn = some m1)
      (hrest : Unmaps release last (v + 1) (d.setPte v Pte.zero) m1 d' m') :
      Unmaps release last v d m d' m'

/-- Page `v` is not in front of the place in its table where a scan from page
`lo` enters it. -/
def Reached (d : PageDir) (lo v : Nat) : Prop :=
  ptx lo ≤ ptx v ∨ ∃ i, pdx lo ≤ i ∧ i < pdx v ∧ (d.pde i).isSome = true

section

variable {release : Mem → Nat → Option Mem} {last v : Nat} {d d' : PageDir} {m m' : Mem}

theorem unmapLoop_unmaps {fuel : Nat} (hfuel : last - v ≤ fuel)
    (h : unmapLoop release fuel v last d m = some (d', m')) :
    Unmaps release last v d m d' m' := by
  induction fuel generalizing v d m with
  | zero =>
    cases h
    exact .done (by omega)
  | succ fuel ih =>
    unfold unmapLoop at h
    split at h
    · rename_i hv
      cases h
      exact .done hv
    · rename_i hv
      split at h
      · rename_i hlookup
        have hnone : d.pde (pdx v) = none := by simpa [PageDir.lookup] using hlookup
        exact .skip (by omega) hnone (ih (by simp only [nptentries]; omega) h)
      · rename_i pte hlookup
        split at h
        · rename_i hp
          split at h
          · cases h
          · split at h
            · cases h
            · rename_i m1 hm1
              exact .page (by omega) (present_eq_some.mpr ⟨hlookup, hp⟩) hm1 (ih (by omega) h)
        · rename_i hp
          obtain ⟨table, htable, _⟩ := Option.map_eq_some_iff.mp hlookup
          exact .absent (by omega) (by simp [htable])
            (present_of_not_p hlookup (by simpa using hp)) (ih (by omega) h)

theorem Unmaps.own (h : Unmaps release last v d m d' m') : d'.own = d.own := by
  induction h with
  | done => rfl
  | skip _ _ _ ih | absent _ _ _ _ ih => exact ih
  | page _ _ _ _ ih => exact ih.trans (own_setPte _ _ _)

theorem Unmaps.wf (h : Unmaps release last v d m d' m') (hd : d.Wf) : d'.Wf := by
  induction h with
  | done => exact hd
  | skip _ _ _ ih | absent _ _ _ _ ih => exact ih hd
  | page _ _ _ _ ih => exact ih (wf_setPte hd fun _ => rfl)

variable {u : Nat}

theorem Unmaps.outside (h : Unmaps release last v d m d' m') (hu : u < v ∨ last ≤ u) :
    d'.present u = d.present u := by
  induction h with
  | done => rfl
  | skip _ _ _ ih | absent _ _ _ _ ih => exact ih (by omega)
  | page hv _ _ _ ih => rw [ih (by omega), present_setPte_of_ne (by omega)]

theorem Unmaps.sub (h : Unmaps release last v d m d' m') {pte : Pte}
    (hu : d'.present u = some pte) : d.present u = some pte := by
  induction h with
  | done => exact hu
  | skip _ _ _ ih | absent _ _ _ _ ih => exact ih hu
  | @page w d _ _ _ _ _ _ _ _ _ ih =>
    have hset := ih hu
    by_cases huw : u = w
    · rw [huw, present_setPte_zero] at hset
      cases hset
    · rwa [present_setPte_of_ne huw] at hset

theorem isSome_of_present {pte : Pte} (h : d.present v = some pte) :
    (d.pde (pdx v)).isSome = true := by
  obtain ⟨table, htable, _⟩ := Option.map_eq_some_iff.mp (present_eq_some.mp h).1
  rw [htable]
  rfl

theorem isSome_setPte {pte : Pte} (h : d.present v = some pte) :
    ((d.setPte v Pte.zero).pde (pdx v)).isSome = true := by
  have htables := congrArg Option.isSome (setPte_tables d v Pte.zero (pdx v))
  simp only [Option.isSome_map] at htables
  rw [htables, isSome_of_present h]

theorem reached_of_table (htable : (d.pde (pdx v)).isSome = true) (hvu : v ≤ u) :
    Reached d v u := by
  by_cases hpdx : pdx v < pdx u
  · exact Or.inr ⟨pdx v, le_rfl, hpdx, htable⟩
  · refine Or.inl ?_
    simp only [pdx, ptx, nptentries] at hpdx ⊢
    omega

theorem reached_next (htable : (d.pde (pdx v)).isSome = true) (hvu : v + 1 ≤ u) :
    Reached d (v + 1) u := by
  by_cases hfirst : ptx (v + 1) = 0
  · exact Or.inl (by omega)
  · have hsame : pdx (v + 1) = pdx v := by
      simp only [pdx, ptx, nptentries] at hfirst ⊢
      omega
    exact reached_of_table (by rwa [hsame]) hvu

theorem reached_skip (hnone : d.pde (pdx v) = none) :
    Reached d (v + nptentries) u ↔ Reached d v u := by
  have hptx : ptx (v + nptentries) = ptx v := by simp [ptx]
  have hpdx : pdx (v + nptentries) = pdx v + 1 := by simp [pdx]
  rw [Reached, Reached, hptx, hpdx]
  refine or_congr_right ⟨?_, ?_⟩
  · rintro ⟨i, hlo, hhi, htable⟩
    exact ⟨i, by omega, hhi, htable⟩
  · rintro ⟨i, hlo, hhi, htable⟩
    refine ⟨i, Nat.lt_of_le_of_ne hlo ?_, hhi, htable⟩
    rintro rfl
    simp [hnone] at htable

theorem absent_of_reached (hnone : d.pde (pdx v) = none) (hvu : v ≤ u)
    (hnear : u < v + nptentries) (hu : Reached d v u) : d.present u = none := by
  have hsame : pdx u = pdx v := by
    rcases hu with hle | ⟨i, hlo, hhi, htable⟩
    · simp only [pdx, ptx, nptentries] at hle hnear ⊢
      omega
    · have hi : i = pdx v := by
        simp only [pdx, nptentries] at hlo hhi hnear ⊢
        omega
      simp [hi, hnone] at htable
  exact present_of_lookup_none (by simp [PageDir.lookup, hsame, hnone])

section

variable (h : Unmaps release last v d m d' m')
include h

theorem Unmaps.present_eq (hvu : v ≤ u)
    (hlast : u < last) :
    (Reached d v u → d'.present u = none) ∧ (¬ Reached d v u → d'.present u = d.present u) := by
  induction h with
  | done hv => omega
  | @skip w d _ _ _ hlt hnone hrest ih =>
    by_cases hfar : w + nptentries ≤ u
    · rw [← reached_skip hnone]
      exact ih hfar
    · have hout := hrest.outside (u := u) (by omega)
      exact ⟨fun hu => hout.trans (absent_of_reached hnone hvu (by omega) hu), fun _ => hout⟩
  | @absent w d _ _ _ hlt htable habsent hrest ih =>
    refine ⟨fun _ => ?_, fun hu => absurd (reached_of_table htable hvu) hu⟩
    by_cases huw : u = w
    · rw [hrest.outside (by omega), huw, habsent]
    · exact (ih (by omega)).1 (reached_next htable (by omega))
  | @page w d _ _ _ _ _ hlt hentry _ hrest ih =>
    refine ⟨fun _ => ?_, fun hu => absurd (reached_of_table (isSome_of_present hentry) hvu) hu⟩
    by_cases huw : u = w
    · rw [hrest.outside (by omega), huw, present_setPte_zero]
    · exact (ih (by omega)).1 (reached_next (isSome_setPte hentry) (by omega))

theorem Unmaps.empty (hv : v % nptentries = 0 ∨ (d.pde (pdx v)).isSome = true) (hvu : v ≤ u)
    (hu : u < last) : d'.present u = none := by
  refine (h.present_eq hvu hu).1 ?_
  rcases hv with hv | htable
  · exact Or.inl (by rw [ptx, hv]; exact Nat.zero_le _)
  · exact reached_of_table htable hvu

theorem Unmaps.gave (hrelease : ∀ {m q m'}, release m q = some m' → Mem.Gave m m') : m.Gave m' := by
  induction h with
  | done => exact Mem.Gave.refl _
  | skip _ _ _ ih | absent _ _ _ _ ih => exact ih
  | page _ _ hm _ ih => exact (hrelease hm).trans ih

/-- `counted` stands for a `release` that looks at the counter. One that does
not may only be given pages with a single mapping. -/
theorem Unmaps.books {read : ℤ → ℤ} {valid : Nat → Prop} {K U : Nat → ℕ} {counted : Prop}
    (hlast : last ≤ upages) (hrelease : ∀ {m m' q U}, Books read valid m K (U + Pi.single q 1) →
    (counted ∨ U q = 0) →
      release m q = some m' → Books read valid m' K U)
    (hsafe : counted ∨ Unshared (U + d.refs) d v last)
    (hbooks : Books read valid m K (U + d.refs)) : Books read valid m' K (U + d'.refs) := by
  induction h with
  | done => exact hbooks
  | skip _ _ _ ih | absent _ _ _ _ ih =>
    refine ih (hsafe.imp_right fun h => ?_) hbooks
    exact fun u hlo hhi => h u (by omega) hhi
  | @page w d _ _ _ _ pte hlt hentry hm hrest ih =>
    have hrefs := refs_setPte_zero (by omega : w < upages) hentry
    have hmaps : d.maps w = some pte.ppn := maps_eq_some.mpr ⟨pte, hentry, rfl⟩
    rw [hrefs, ← add_assoc] at hbooks
    refine ih (hsafe.imp_right fun h => ?_) (hrelease hbooks (hsafe.imp_right fun h => ?_) hm)
    · intro u hlo hhi q hq
      have hold : d.maps u = some q := by
        rwa [maps_congr (present_setPte_of_ne (by omega))] at hq
      have hone := h u (by omega) hhi q hold
      have hpos := refs_pos.mpr ⟨u, by omega, hq⟩
      simp only [hrefs, Pi.add_apply] at hone ⊢
      omega
    · have hone := h w le_rfl hlt pte.ppn hmaps
      simp only [hrefs, Pi.add_apply, Pi.single_eq_same] at hone ⊢
      omega

theorem Unmaps.unshared {U : Nat → ℕ} {lo hi : Nat}
    (hhi : hi ≤ upages) (hunshared : Unshared (U + d.refs) d lo hi) :
    Unshared (U + d'.refs) d' lo hi := by
  have hsub : ∀ u q, d'.maps u = some q → d.maps u = some q := by
    intro u q hu
    obtain ⟨pte, hpte, hq⟩ := maps_eq_some.mp hu
    exact maps_eq_some.mpr ⟨pte, h.sub hpte, hq⟩
  intro u hlo hlt q hq
  have hone := hunshared u hlo hlt q (hsub u q hq)
  have hle : d'.refs q ≤ d.refs q := tally_mono hsub q
  have hpos : 0 < d'.refs q := refs_pos.mpr ⟨u, by omega, hq⟩
  simp only [Pi.add_apply] at hone ⊢
  -- every mapping counted in `U` would be a second one before
  omega

end

end

section

variable {read : ℤ → ℤ} {valid : Nat → Prop} {m m' : Mem} {d d' : PageDir} {K U : Nat → ℕ} {q : Nat}

theorem books_cowRelease [Reading read] (hbooks : Books read valid m K (U + Pi.single q 1))
    (h : cowRelease m q = some m') : Books read valid m' K U := by
  unfold cowRelease at h
  simp only [Mem.setCounter, Function.update_self] at h
  by_cases hcounter : 1 < m.counters q
  · rw [if_neg (by omega)] at h
    cases h
    exact hbooks.leave (hbooks.shared_of_counter hcounter)
  · have hsingle := hbooks.single_of_counter (by omega)
    have howned := (hbooks.detach hsingle).recount (c := m.counters q - 1)
      (r := q) (by simp)
    split at h
    · exact books_kfree howned h
    · cases h
      exact howned.mono (fun r => by simp)

theorem cowRelease_freed (hbooks : Books id valid m K (U + Pi.single q 1)) (hq : U q = 0)
    (h : cowRelease m q = some m') : q ∈ m'.freelist := by
  have hcounter := hbooks.exact q (by simp)
  simp only [id_eq, Pi.add_apply, Pi.single_eq_same, hq] at hcounter
  unfold cowRelease at h
  simp only [Mem.setCounter, Function.update_self] at h
  rw [if_pos (by omega)] at h
  rw [kfree_some h]
  exact List.mem_cons_self

theorem books_kfree_single (hbooks : Books read valid m K (U + Pi.single q 1)) (hq : U q = 0)
    (h : kfree m q = some m') : Books read valid m' K U :=
  books_kfree (hbooks.detach hq) h

theorem pages_kernbase : pages kernbase = upages := by
  decide

theorem unmapRange_cases {release : Mem → Nat → Option Mem} {oldsz newsz sz : Nat}
    (h : unmapRange release m d oldsz newsz = some (sz, d', m')) :
    (oldsz ≤ newsz ∧ d' = d ∧ m' = m) ∨
    (newsz < oldsz ∧ Unmaps release (pages oldsz) (pages newsz) d m d' m') := by
  unfold unmapRange at h
  split at h
  · rename_i hle
    cases h
    exact Or.inl ⟨hle, rfl, rfl⟩
  · rename_i hlt
    obtain ⟨result, hloop, hresult⟩ := Option.map_eq_some_iff.mp h
    cases hresult
    exact Or.inr ⟨by omega, unmapLoop_unmaps le_rfl hloop⟩

theorem listed_tables (d : PageDir) : listed (d.tables ++ [d.page]) = d.own := by
  funext r
  simp only [PageDir.tables, listed_append, listed_filterMap_range, listed_cons, listed_nil,
    PageDir.own, Pi.add_apply, Pi.zero_apply]
  omega

theorem Unmaps.refs_empty {release : Mem → Nat → Option Mem}
    (h : Unmaps release upages 0 d m d' m') : d'.refs = 0 := by
  refine tally_none ?_
  intro v hv
  simp [PageDir.maps, h.empty (Or.inl rfl) (Nat.zero_le v) hv]

theorem freevm_cases (h : freevm m d = some m') :
    ∃ d1 m1, Unmaps kfree upages 0 d m d1 m1 ∧ kfreeMany (d1.tables ++ [d1.page]) m1 = some m' := by
  unfold freevm at h
  split at h
  · cases h
  · rename_i sz d1 m1 hdealloc
    rcases unmapRange_cases hdealloc with ⟨hle, _⟩ | ⟨_, hloop⟩
    · simp at hle
    · exact ⟨d1, m1, by rwa [pages_kernbase] at hloop, h⟩

theorem cowFreevm_cases (h : cowFreevm m d = some m') :
    ∃ d1 m1, Unmaps cowRelease upages 0 d m d1 m1 ∧
      kfreeMany (d1.tables ++ [d1.page]) m1 = some m' := by
  unfold cowFreevm at h
  split at h
  · cases h
  · rename_i sz d1 m1 hdealloc
    rcases unmapRange_cases hdealloc with ⟨hle, _⟩ | ⟨_, hloop⟩
    · simp at hle
    · exact ⟨d1, m1, by rwa [pages_kernbase] at hloop, h⟩

theorem Unmaps.books_free {release : Mem → Nat → Option Mem} {m1 : Mem}
    (h : Unmaps release upages 0 d m d' m1)
    (hbooks : Books read valid m1 (K + d.own) (U + d'.refs))
    (hfree : kfreeMany (d'.tables ++ [d'.page]) m1 = some m') : Books read valid m' K U := by
  refine books_kfreeMany ?_ hfree
  rw [listed_tables, h.own]
  rwa [h.refs_empty, add_zero] at hbooks

theorem books_freevm (hbooks : Books read valid m (K + d.own) (U + d.refs))
    (hunshared : Unshared (U + d.refs) d 0 upages) (h : freevm m d = some m') :
    Books read valid m' K U := by
  obtain ⟨d1, m1, hloop, hfree⟩ := freevm_cases h
  have hsafe : False ∨ Unshared (U + d.refs) d 0 upages := Or.inr hunshared
  refine hloop.books_free (hloop.books le_rfl ?_ hsafe hbooks) hfree
  intro m m' q U hbooks hq hm
  exact books_kfree_single hbooks (hq.resolve_left id) hm

theorem books_cowFreevm [Reading read] (hbooks : Books read valid m (K + d.own) (U + d.refs))
    (h : cowFreevm m d = some m') : Books read valid m' K U := by
  obtain ⟨d1, m1, hloop, hfree⟩ := cowFreevm_cases h
  have hsafe : True ∨ Unshared (U + d.refs) d 0 upages := Or.inl trivial
  refine hloop.books_free (hloop.books le_rfl ?_ hsafe hbooks) hfree
  intro m m' q U hbooks _ hm
  exact books_cowRelease hbooks hm

theorem Unmaps.freed {last v : Nat} (h : Unmaps cowRelease last v d m d' m') (hlast : last ≤ upages)
    (hbooks : Books id valid m K (U + d.refs)) {r : Nat} (hr : 0 < d.refs r)
    (hgone : (U + d'.refs) r = 0) : r ∈ m'.freelist := by
  induction h with
  | done =>
    simp only [Pi.add_apply] at hgone
    omega
  | skip _ _ _ ih | absent _ _ _ _ ih => exact ih hbooks hr hgone
  | @page w d m m1 d' m' pte hlt hentry hm hrest ih =>
    have hrefs := refs_setPte_zero (by omega : w < upages) hentry
    rw [hrefs, ← add_assoc] at hbooks
    by_cases hmore : 0 < (d.setPte w Pte.zero).refs r
    · exact ih (books_cowRelease hbooks hm) hmore hgone
    · have heq : r = pte.ppn := by
        by_contra hne
        rw [hrefs, Pi.add_apply, Pi.single_apply, if_neg hne] at hr
        omega
      have hsingle : (U + (d.setPte w Pte.zero).refs) pte.ppn = 0 := by
        rw [← heq]
        simp only [Pi.add_apply] at hgone ⊢
        omega
      rw [heq]
      exact (hrest.gave gave_cowRelease).free.subset (cowRelease_freed hbooks hsingle hm)

theorem cowFreevm_freed (hbooks : Books id valid m (K + d.own) (U + d.refs)) {r : Nat}
    (hr : 0 < d.refs r) (hgone : U r = 0) (h : cowFreevm m d = some m') : r ∈ m'.freelist := by
  obtain ⟨d1, m1, hloop, hfree⟩ := cowFreevm_cases h
  refine (gave_kfreeMany hfree).free.subset (hloop.freed le_rfl hbooks hr ?_)
  rw [hloop.refs_empty, add_zero, hgone]

theorem gave_freevm (h : freevm m d = some m') : m.Gave m' := by
  obtain ⟨d1, m1, hloop, hfree⟩ := freevm_cases h
  exact (hloop.gave gave_kfree).trans (gave_kfreeMany hfree)

theorem gave_cowFreevm (h : cowFreevm m d = some m') : m.Gave m' := by
  obtain ⟨d1, m1, hloop, hfree⟩ := cowFreevm_cases h
  exact (hloop.gave gave_cowRelease).trans (gave_kfreeMany hfree)

theorem gave_deallocuvm {oldsz newsz sz : Nat}
    (h : deallocuvm m d oldsz newsz = some (sz, d', m')) : m.Gave m' := by
  rcases unmapRange_cases h with ⟨_, _, rfl⟩ | ⟨_, hloop⟩
  · exact Mem.Gave.refl _
  · exact hloop.gave gave_kfree

theorem books_deallocuvm {oldsz newsz sz : Nat} (hbooks : Books read valid m K (U + d.refs))
    (hsz : pages oldsz ≤ upages) (hunshared : Unshared (U + d.refs) d (pages newsz) (pages oldsz))
    (h : deallocuvm m d oldsz newsz = some (sz, d', m')) : Books read valid m' K (U + d'.refs) := by
  rcases unmapRange_cases h with ⟨_, rfl, rfl⟩ | ⟨_, hloop⟩
  · exact hbooks
  · have hsafe : False ∨ Unshared (U + d.refs) d (pages newsz) (pages oldsz) := Or.inr hunshared
    refine hloop.books hsz ?_ hsafe hbooks
    intro m m' q U hbooks hq hm
    exact books_kfree_single hbooks (hq.resolve_left id) hm

end

end Xv6.Vm
