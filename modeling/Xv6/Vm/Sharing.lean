import Xv6.Vm.Growth

/-! Copy on write: `cow_shareuvm` maps the parent's pages into the child and
`cow_copyuvm` gives a faulting process a page of its own. -/
namespace Xv6.Vm
open Ledger

section

variable {d : PageDir} {v : Nat} {pte : Pte}

theorem maps_setPte_same (pte' : Pte) (hlookup : d.lookup v = some pte) (hppn : pte'.ppn = pte.ppn)
    (hp : pte'.p = pte.p) (u : Nat) : (d.setPte v pte').maps u = d.maps u := by
  by_cases huv : u = v
  · subst huv
    simp only [PageDir.maps, PageDir.present, lookup_setPte_self hlookup, hlookup,
      Option.filter_some, hp]
    split <;> simp [hppn]
  · exact maps_congr (present_setPte_of_ne huv)

theorem refs_setPte_same (pte' : Pte) (hlookup : d.lookup v = some pte) (hppn : pte'.ppn = pte.ppn)
    (hp : pte'.p = pte.p) : (d.setPte v pte').refs = d.refs :=
  refs_congr fun u _ => maps_setPte_same pte' hlookup hppn hp u

theorem refs_setPte_moved (pte' : Pte) (hv : v < upages) (hentry : d.present v = some pte)
    (hp : pte'.p = true) :
    (d.setPte v pte').refs = (d.setPte v Pte.zero).refs + Pi.single pte'.ppn 1 := by
  refine refs_install hv present_setPte_zero
    (present_setPte_self (present_eq_some.mp hentry).1 hp) ?_
  intro u hu
  rw [present_setPte_of_ne hu, present_setPte_of_ne hu]

theorem refs_moved {d' : PageDir} {pte' : Pte} (hv : v < upages) (hentry : d.present v = some pte)
    (hentry' : d'.present v = some pte') (hothers : ∀ u, u ≠ v → d'.present u = d.present u) :
    d'.refs + Pi.single pte.ppn 1 = d.refs + Pi.single pte'.ppn 1 := by
  have hmoved : d'.refs = (d.setPte v Pte.zero).refs + Pi.single pte'.ppn 1 := by
    refine refs_install hv present_setPte_zero hentry' ?_
    intro u hu
    rw [hothers u hu, present_setPte_of_ne hu]
  rw [hmoved, refs_setPte_zero hv hentry]
  abel

end

/-- The turns of the loop of `cow_shareuvm`. It stops when the child's table
cannot be allocated; the parent's entry is marked by then. -/
inductive Shares : Nat → Nat → PageDir → PageDir → Mem → Bool → PageDir → PageDir → Mem → Prop
    where
  | done {v src d m} : Shares 0 v src d m true src d m
  | stop {n v src d m pte m'} (hsrc : src.present v = some pte) (htable : d.pde (pdx v) = none)
      (hfail : kalloc m = (none, m')) :
      Shares (n + 1) v src d m false (src.setPte v pte.share) d m'
  | page {n v src d m pte d1 m1 ok src' d' m'} (hsrc : src.present v = some pte)
      (hinstall : Installed m d v pte.ppn pte.share.flags d1 m1)
      (hrest : Shares n (v + 1) (src.setPte v pte.share) d1 (incCounter m1 pte.ppn) ok
        src' d' m') :
      Shares (n + 1) v src d m ok src' d' m'

theorem shareLoop_shares {n v : Nat} {src src' d d' : PageDir} {m m' : Mem} {ok : Bool}
    (h : shareLoop n v src d m = some (ok, src', d', m')) :
    Shares n v src d m ok src' d' m' := by
  induction n generalizing v src d m with
  | zero =>
    cases h
    exact .done
  | succ n ih =>
    unfold shareLoop at h
    split at h
    · cases h
    · rename_i pte hlookup
      split at h
      · rename_i hp
        have hsrc := present_eq_some.mpr ⟨hlookup, hp⟩
        simp only [mappages_page] at h
        split at h
        · cases h
        · rename_i d1 m1 hmap
          cases h
          rcases mapPage_cases hmap with ⟨hok, _⟩ | ⟨_, rfl, htable, hfail⟩
          · cases hok
          · exact .stop hsrc htable hfail
        · rename_i d1 m1 hmap
          rcases mapPage_cases hmap with ⟨_, hinstall⟩ | ⟨hok, _⟩
          · exact .page hsrc hinstall (ih h)
          · cases hok
      · cases h

theorem incCounter_eq (m : Mem) (q : Nat) : incCounter m q = m.setCounter q
    (bump (m.counters q)) := by
  unfold incCounter bump
  split <;> rfl

section

variable {read : ℤ → ℤ} {valid : Nat → Prop} {n v : Nat} {src src' d d' : PageDir} {m m' : Mem}
    {ok : Bool}
  {K U : Nat → ℕ}

theorem Shares.took (h : Shares n v src d m ok src' d' m') : m.Took m' := by
  induction h with
  | done => exact Mem.Took.refl _
  | stop _ _ hfail => exact took_kalloc hfail
  | page _ hinstall _ ih =>
    rw [incCounter_eq] at ih
    exact (hinstall.took.setCounter _).trans ih

theorem Shares.failed (h : Shares n v src d m false src' d' m') : m'.kfailed = true := by
  generalize hok : false = ok at h
  induction h with
  | done => cases hok
  | stop _ _ hfail => exact (lost_kalloc hfail).failed
  | page _ _ _ ih => exact ih hok

theorem Shares.maps_src (h : Shares n v src d m ok src' d' m') (u : Nat) :
    src'.maps u = src.maps u := by
  induction h with
  | done => rfl
  | stop hsrc => exact maps_setPte_same (Pte.share _) (present_eq_some.mp hsrc).1 rfl rfl u
  | page hsrc _ _ ih =>
    exact ih.trans (maps_setPte_same (Pte.share _) (present_eq_some.mp hsrc).1 rfl rfl u)

theorem Shares.own_src (h : Shares n v src d m ok src' d' m') : src'.own = src.own := by
  induction h with
  | done => rfl
  | stop => exact own_setPte _ _ _
  | page _ _ _ ih => exact ih.trans (own_setPte _ _ _)

theorem share_clean {pte : Pte} (hp : pte.p = true) : pte.share.p = false → pte.share =
    Pte.zero := by
  simp [Pte.share, hp]

section

variable (h : Shares n v src d m ok src' d' m')
include h

theorem Shares.wf_src (hsrc : src.Wf) : src'.Wf := by
  induction h with
  | done => exact hsrc
  | stop hentry => exact wf_setPte hsrc (share_clean (present_eq_some.mp hentry).2)
  | page hentry _ _ ih => exact ih (wf_setPte hsrc (share_clean (present_eq_some.mp hentry).2))

theorem Shares.wf (hd : d.Wf) (hv : v + n ≤ upages) :
    d'.Wf := by
  induction h with
  | done | stop => exact hd
  | page _ hinstall _ ih => exact ih (hinstall.wf hd (by omega)) (by omega)

theorem Shares.books [Reading read]
    (hv : v + n ≤ upages) (hsrc : ∀ q, src.refs q ≤ U q)
    (hbooks : Books read valid m (K + d.own) (U + d.refs)) :
    Books read valid m' (K + d'.own) (U + d'.refs) := by
  induction h with
  | done => exact hbooks
  | stop _ _ hfail => exact books_kalloc_none hbooks hfail
  | @page n v src d m pte d1 m1 ok src' d' m' hentry hinstall _ ih =>
    refine ih (by omega) ?_ ?_
    · rwa [refs_setPte_same pte.share (present_eq_some.mp hentry).1 rfl rfl]
    · have hbooks1 := hinstall.books (by omega) hbooks
      have hmaps : src.maps v = some pte.ppn := maps_eq_some.mpr ⟨pte, hentry, rfl⟩
      have hpos : 0 < (U + d.refs) pte.ppn := by
        have := refs_pos.mpr ⟨v, by omega, hmaps⟩
        have := hsrc pte.ppn
        simp only [Pi.add_apply]
        omega
      rw [refs_install (by omega) hinstall.absent hinstall.entry hinstall.others, ← add_assoc,
        incCounter_eq]
      exact hbooks1.share hpos

theorem Shares.outside {u : Nat} (hu : u < v ∨ v + n ≤ u) :
    src'.present u = src.present u ∧ d'.present u = d.present u := by
  induction h with
  | done => exact ⟨rfl, rfl⟩
  | stop => exact ⟨present_setPte_of_ne (by omega), rfl⟩
  | page _ hinstall _ ih =>
    obtain ⟨hsrc, hd⟩ := ih (by omega)
    exact ⟨hsrc.trans (present_setPte_of_ne (by omega)), hd.trans (hinstall.others u (by omega))⟩

theorem Shares.refs_other (hv : v + n ≤ upages) {r : Nat}
    (hr : ∀ u, v ≤ u → u < v + n → src.maps u ≠ some r) : d'.refs r = d.refs r := by
  induction h with
  | done | stop => rfl
  | @page n v src d m pte d1 m1 ok src' d' m' hsrc hinstall _ ih =>
    have hne : r ≠ pte.ppn := by
      rintro rfl
      exact hr v le_rfl (by omega) (maps_eq_some.mpr ⟨pte, hsrc, rfl⟩)
    have hrest : d'.refs r = d1.refs r := by
      refine ih (by omega) ?_
      intro u hlo hhi
      rw [maps_setPte_same pte.share (present_eq_some.mp hsrc).1 rfl rfl]
      exact hr u (by omega) (by omega)
    rw [hrest, refs_install (by omega) hinstall.absent hinstall.entry hinstall.others]
    simp [hne]

end

theorem Shares.entry (h : Shares n v src d m true src' d' m') {u : Nat} (hlo : v ≤ u)
    (hhi : u < v + n) :
    ∃ pte, src.present u = some pte ∧ src'.present u = some pte.share ∧
      d'.present u = some pte.share := by
  generalize hok : true = ok at h
  induction h with
  | done => omega
  | stop => cases hok
  | @page n v src d m pte d1 m1 ok src' d' m' hsrc hinstall hrest ih =>
    by_cases huv : u = v
    · subst huv
      obtain ⟨hkeep, hkeep'⟩ := hrest.outside (Or.inl (Nat.lt_succ_self u))
      obtain ⟨hlookup, hp⟩ := present_eq_some.mp hsrc
      refine ⟨pte, hsrc, ?_, ?_⟩
      · rw [hkeep, present_setPte_self hlookup (by simpa [Pte.share] using hp)]
      · rw [hkeep', hinstall.entry]
        simp [Pte.share, hp]
    · obtain ⟨entry, hentry, hboth⟩ := ih (by omega) (by omega) hok
      rw [present_setPte_of_ne huv] at hentry
      exact ⟨entry, hentry, hboth⟩

/-- The child's tables when its first `v` pages are mapped. -/
def Scanned (d : PageDir) (v : Nat) : Prop :=
  ∀ i, (d.pde i).isSome = decide (i * nptentries < v)

theorem Scanned.first (hd : Scanned d v) (htable : d.pde (pdx v) = none) : v % nptentries = 0 := by
  have hscan := hd (pdx v)
  rw [htable, Option.isSome_none, eq_comm, decide_eq_false_iff_not] at hscan
  simp only [pdx, nptentries] at hscan ⊢
  omega

def tablesFor (v : Nat) : Nat :=
  (v + nptentries - 1) / nptentries

theorem Installed.scanned {q : Nat} {perm : Flags} (h : Installed m d v q perm d' m')
    (hd : Scanned d v) : Scanned d' (v + 1) := by
  intro i
  rw [h.tables i, hd i, ← Bool.decide_or]
  refine decide_eq_decide.mpr ?_
  simp only [pdx, nptentries]
  omega

theorem Installed.length {q : Nat} {perm : Flags} (h : Installed m d v q perm d' m')
    (hd : Scanned d v) :
    m'.freelist.length + tablesFor (v + 1) = m.freelist.length + tablesFor v := by
  have hscan : (d.pde (pdx v)).isSome = decide (v / 1024 * 1024 < v) := hd (pdx v)
  simp only [tablesFor, nptentries]
  rcases h.free with ⟨htable, hfree⟩ | ⟨htable, hlength⟩
  · rw [htable] at hscan
    have hlt := of_decide_eq_true hscan.symm
    rw [hfree]
    omega
  · rw [htable] at hscan
    have hge := of_decide_eq_false hscan.symm
    omega

/-- Where the loop stops follows from the length of the free list: at the first
page of a table, when every page has gone into an earlier table. -/
theorem Shares.stopped (h : Shares n v src d m false src' d' m') (hd : Scanned d v) :
    ∃ u, v ≤ u ∧ u < v + n ∧ u % nptentries = 0 ∧
      m.freelist.length + tablesFor v = u / nptentries ∧ (u = v → d' = d) := by
  generalize hok : false = ok at h
  induction h with
  | done => cases hok
  | @stop n v src d m pte m' hsrc htable hfail =>
    obtain ⟨hfree, _⟩ := kalloc_none hfail
    have hmod := hd.first htable
    refine ⟨v, le_rfl, by omega, hmod, ?_, fun _ => rfl⟩
    rw [hfree]
    simp only [tablesFor, nptentries, List.length_nil] at hmod ⊢
    omega
  | @page n v src d m pte d1 m1 ok src' d' m' hsrc hinstall hrest ih =>
    obtain ⟨u, hlo, hhi, hmod, hlength, _⟩ := ih (hinstall.scanned hd) hok
    refine ⟨u, by omega, by omega, hmod, ?_, by omega⟩
    rw [← hinstall.length hd, ← hlength, incCounter_eq, setCounter_freelist]

end

section

variable {read : ℤ → ℤ} {valid : Nat → Prop} {m m' : Mem} {src src' : PageDir}
    {result : Option PageDir} {sz : Nat}
  {K U : Nat → ℕ}

theorem cowShareuvm_cases (h : cowShareuvm m src sz = some (result, src', m')) :
    (result = none ∧ src' = src ∧ setupkvm m = (none, m')) ∨
    ∃ d0 m0 ok d1 m1, setupkvm m = (some d0, m0) ∧
      Shares (pages sz) 0 src d0 m0 ok src' d1 m1 ∧
      ((ok = true ∧ result = some d1 ∧ m' = m1) ∨
        (ok = false ∧ result = none ∧ freevm m1 d1 = some m')) := by
  unfold cowShareuvm at h
  split at h
  · rename_i m0 hsetup
    cases h
    exact Or.inl ⟨rfl, rfl, hsetup⟩
  · rename_i d0 m0 hsetup
    refine Or.inr ⟨d0, m0, ?_⟩
    split at h
    · cases h
    · rename_i src1 d1 m1 hloop
      cases h
      exact ⟨true, _, _, hsetup, shareLoop_shares hloop, Or.inl ⟨rfl, rfl, rfl⟩⟩
    · rename_i src1 d1 m1 hloop
      obtain ⟨m2, hfree, hresult⟩ := Option.map_eq_some_iff.mp h
      cases hresult
      exact ⟨false, _, _, hsetup, shareLoop_shares hloop, Or.inr ⟨rfl, rfl, hfree⟩⟩

/-- `cow_shareuvm` with `free` pages on the free list does not fail between two
page tables of the child. -/
def RoomToShare (free sz : Nat) : Prop :=
  free ≤ kernelTables + 1 ∨ kernelTables + 1 + tablesFor (pages sz) ≤ free

instance (free sz : Nat) : Decidable (RoomToShare free sz) :=
  inferInstanceAs (Decidable (_ ∨ _))

theorem wf_cowShareuvm_src (hsrc : src.Wf) (h : cowShareuvm m src sz = some (result, src', m')) :
    src'.Wf := by
  rcases cowShareuvm_cases h with ⟨_, rfl, _⟩ | ⟨d0, m0, ok, d1, m1, _, hshares, _⟩
  · exact hsrc
  · exact hshares.wf_src hsrc

theorem cowShareuvm_src (h : cowShareuvm m src sz = some (result, src', m')) :
    src'.own = src.own ∧ src'.refs = src.refs := by
  rcases cowShareuvm_cases h with ⟨_, rfl, _⟩ | ⟨d0, m0, ok, d1, m1, _, hshares, _⟩
  · exact ⟨rfl, rfl⟩
  · exact ⟨hshares.own_src, refs_congr fun u _ => hshares.maps_src u⟩

theorem books_cowShareuvm [Reading read] (hsz : pages sz ≤ upages)
    (hsrc : ∀ q, src.refs q ≤ U q)
    (hroom : m'.kfailed = true → RoomToShare m.freelist.length sz)
    (hbooks : Books read valid m K U) (h : cowShareuvm m src sz = some (result, src', m')) :
    match result with
    | none => Books read valid m' K U
    | some d => d.Wf ∧ Books read valid m' (K + d.own) (U + d.refs) := by
  rcases cowShareuvm_cases h with ⟨rfl, _, hsetup⟩ | ⟨d0, m0, ok, d1, m1, hsetup, hshares, hend⟩
  · exact books_setupkvm_none hbooks hsetup
  · have hfresh := fresh_setupkvm hsetup
    have hbooks1 := hshares.books (by omega) hsrc (books_setupkvm hbooks hsetup)
    rcases hend with ⟨rfl, rfl, rfl⟩ | ⟨rfl, rfl, hfree⟩
    · exact ⟨hshares.wf hfresh.wf (by omega), hbooks1⟩
    · have hlength := setupkvm_length hsetup
      have hscanned : Scanned d0 0 := by simp [Scanned, hfresh.empty]
      obtain ⟨u, _, hu, hmod, hstop, hsame⟩ := hshares.stopped hscanned
      have hroom := hroom ((gave_freevm hfree).failed.trans hshares.failed)
      have hzero : u = 0 := by
        simp only [RoomToShare, tablesFor, nptentries] at hroom hmod hstop
        omega
      rw [hsame hzero] at hbooks1 hfree
      exact books_freevm hbooks1 (unshared_fresh hfresh _ _ _) hfree

end

/-- What `cow_copyuvm` does for page `v`: nothing, or it copies a page with
several mappings, or it takes over a page with a single one. -/
inductive CowCopies (m : Mem) (d : PageDir) (v : Nat) : Bool → PageDir → Mem → Prop where
  | refused : CowCopies m d v false d m
  | failed {m'} (hfail : kalloc m = (none, m')) : CowCopies m d v false d m'
  | copied {pte q m1} (hlookup : d.lookup v = some pte) (hsh : pte.flags.sh = true)
      (hcounter : 1 < m.counters pte.ppn) (hq : kalloc m = (some q, m1)) :
      CowCopies m d v true (d.setPte v { pte.unshare with ppn := q })
        (((m1.setFrame q (m.frame pte.ppn)).setCounter q 1).setCounter pte.ppn
          (((m1.setFrame q (m.frame pte.ppn)).setCounter q 1).counters pte.ppn - 1))
  | taken {pte} (hlookup : d.lookup v = some pte) (hsh : pte.flags.sh = true)
      (hcounter : m.counters pte.ppn ≤ 1) : CowCopies m d v true (d.setPte v pte.unshare) m

section

variable {read : ℤ → ℤ} {valid : Nat → Prop} {m m' : Mem} {d d' : PageDir} {v : Nat} {ok : Bool}
    {K U : Nat → ℕ}

theorem cowCopyuvm_copies {va sz : Nat} (h : cowCopyuvm m d va sz = (ok, d', m')) :
    CowCopies m d (va / pgsize) ok d' m' := by
  unfold cowCopyuvm at h
  split at h
  · cases h
    exact .refused
  · rename_i pte hlookup
    split at h
    · rename_i hguard
      split at h
      · rename_i hcounter
        split at h
        · rename_i m1 hfail
          cases h
          exact .failed hfail
        · rename_i q m1 hq
          have hframe : m1.frame = m.frame := by
            obtain ⟨rest, _, rfl⟩ := kalloc_some hq
            rfl
          rw [hframe] at h
          cases h
          exact .copied hlookup hguard.1 hcounter hq
      · cases h
        exact .taken hlookup hguard.1 (by omega)
    · cases h
      exact .refused

theorem present_of_sh {pte : Pte} (hd : d.Wf) (hlookup : d.lookup v = some pte)
    (hsh : pte.flags.sh = true) : d.present v = some pte := by
  refine present_eq_some.mpr ⟨hlookup, ?_⟩
  by_contra hp
  have hzero := hd.clean v pte hlookup (by simpa using hp)
  simp [hzero, Pte.zero] at hsh

theorem CowCopies.own (h : CowCopies m d v ok d' m') : d'.own = d.own := by
  cases h with
  | refused | failed => rfl
  | copied | taken => exact own_setPte _ _ _

theorem CowCopies.wf (h : CowCopies m d v ok d' m') (hd : d.Wf) : d'.Wf := by
  cases h with
  | refused | failed => exact hd
  | copied hlookup hsh | taken hlookup hsh =>
    have hp := (present_eq_some.mp (present_of_sh hd hlookup hsh)).2
    exact wf_setPte hd (by simp [Pte.unshare, hp])

theorem CowCopies.books [Reading read] (h : CowCopies m d v ok d' m') (hd : d.Wf)
    (hbooks : Books read valid m K (U + d.refs)) : Books read valid m' K (U + d'.refs) := by
  cases h with
  | refused => exact hbooks
  | failed hfail => exact books_kalloc_none hbooks hfail
  | @copied pte q m1 hlookup hsh hcounter hq =>
    have hentry := present_of_sh hd hlookup hsh
    have hv := wf_present hd hentry
    have hp := (present_eq_some.mp hentry).2
    have hmaps : 0 < (U + d.refs) pte.ppn := by
      have := refs_pos.mpr ⟨v, hv, maps_eq_some.mpr ⟨pte, hentry, rfl⟩⟩
      simp only [Pi.add_apply]
      omega
    have hne : q ≠ pte.ppn := by
      rintro rfl
      exact hbooks.not_free_of_shared hmaps (kalloc_mem hq)
    rw [refs_setPte_moved _ hv hentry (by simpa [Pte.unshare] using hp), ← add_assoc]
    rw [refs_setPte_zero hv hentry, ← add_assoc] at hbooks
    have hshared := hbooks.shared_of_counter hcounter
    -- the new page is owned, the old one loses a mapping, the new one gets it
    have howned : Books read valid ((m1.setFrame q (m.frame pte.ppn)).setCounter q 1)
        (K + Pi.single q 1) (U + (d.setPte v Pte.zero).refs + Pi.single pte.ppn 1) :=
      (books_kalloc hbooks hq).recount (by simp)
    refine (howned.leave hshared).attach ?_
    simp only [Mem.setCounter, Function.update_of_ne hne, Function.update_self]
    exact Reading.one
  | @taken pte hlookup hsh hcounter =>
    rwa [refs_setPte_same pte.unshare hlookup rfl rfl]

end

end Xv6.Vm
