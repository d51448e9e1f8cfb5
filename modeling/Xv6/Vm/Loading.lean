import Xv6.Vm.Sharing

/-! `exec` up to the commit: the new address space has only pages of its own,
so that the `bad` path may give all of them back. -/
namespace Xv6.Vm
open Ledger

/-- An address space under construction next to the pages `K` and the mappings
`U` of the others. -/
structure Private (read : ℤ → ℤ) (valid : Nat → Prop) (K U : Nat → ℕ) (d : PageDir) (m : Mem) : Prop
    where
  wf : d.Wf
  books : Books read valid m (K + d.own) (U + d.refs)
  unshared : Unshared (U + d.refs) d 0 upages

/-- Only the contents of frames differ. -/
def Mem.SameLists (m m' : Mem) : Prop :=
  m'.freelist = m.freelist ∧ m'.counters = m.counters

section

variable {read : ℤ → ℤ} {valid : Nat → Prop} {K U : Nat → ℕ} {d d' : PageDir} {m m' : Mem}

theorem Mem.SameLists.trans {m1 : Mem} (h : m.SameLists m1) (h' : m1.SameLists m') :
    m.SameLists m' :=
  ⟨h'.1.trans h.1, h'.2.trans h.2⟩

theorem sameLists_setFrame (m : Mem) (q : Nat) (page : Page) : m.SameLists (m.setFrame q page) :=
  ⟨rfl, rfl⟩

theorem Private.sameLists (h : Private read valid K U d m) (hsame : m.SameLists m') :
    Private read valid K U d m' where
  wf := h.wf
  books := by
    unfold Books
    rw [hsame.1, hsame.2]
    exact h.books
  unshared := h.unshared

theorem private_setupkvm (hbooks : Books read valid m K U) (h : setupkvm m = (some d, m')) :
    Private read valid K U d m' :=
  ⟨(fresh_setupkvm h).wf, books_setupkvm hbooks h, unshared_fresh (fresh_setupkvm h) _ _ _⟩

variable {sz : Nat}

theorem Private.allocuvm [Reading read] {oldsz newsz : Nat} (h : Private read valid K U d m)
    (halloc : allocuvm m d oldsz newsz = some (sz, d', m')) : Private read valid K U d' m' where
  wf := wf_allocuvm h.wf halloc
  books := by
    refine books_allocuvm h.books ?_ halloc
    intro _ hlt u _ hu
    have := pages_le_upages (Nat.le_of_lt hlt)
    exact h.unshared u (Nat.zero_le u) (by omega)
  unshared := unshared_allocuvm h.books h.unshared halloc

theorem Private.freevm (h : Private read valid K U d m) (hfree : freevm m d = some m') :
    Books read valid m' K U :=
  books_freevm h.books h.unshared hfree

theorem Private.clearpteu {va : Nat} (h : Private read valid K U d m)
    (hclear : clearpteu d va = some d') : Private read valid K U d' m := by
  unfold Vm.clearpteu at hclear
  split at hclear
  · cases hclear
  · rename_i pte hlookup
    cases hclear
    have hmaps := maps_setPte_same { pte with flags := { pte.flags with u := false } } hlookup rfl
      rfl
    have hrefs := refs_setPte_same { pte with flags := { pte.flags with u := false } } hlookup rfl
      rfl
    refine ⟨wf_setPte h.wf ?_, ?_, ?_⟩
    · intro hp
      rw [h.wf.clean _ pte hlookup hp]
      rfl
    · rw [own_setPte, hrefs]
      exact h.books
    · intro u hlo hhi q hq
      rw [hmaps] at hq
      rw [hrefs]
      exact h.unshared u hlo hhi q hq

theorem sameLists_loaduvm {ph : Phdr} {ok : Bool} (h : loaduvm m d ph = some (ok, m')) :
    m.SameLists m' := by
  have hloop : ∀ n i (m m' : Mem) (ok : Bool), loadLoop ph d n i m = some (ok, m') →
      m.SameLists m' := by
    intro n
    induction n with
    | zero =>
      intro i m m' ok h
      cases h
      exact ⟨rfl, rfl⟩
    | succ n ih =>
      intro i m m' ok h
      unfold loadLoop at h
      split at h
      · cases h
      · simp only at h
        split at h
        · exact (sameLists_setFrame m _ _).trans (ih _ _ _ _ h)
        · cases h
          exact ⟨rfl, rfl⟩
  unfold loaduvm at h
  split at h
  · exact hloop _ _ _ _ _ h
  · cases h

theorem sameLists_copyout {va : Nat} {bytes : List UInt8} {ok : Bool}
    (h : copyout m d va bytes = some (ok, m')) : m.SameLists m' := by
  have hloop : ∀ fuel va bytes (m m' : Mem) (ok : Bool),
      copyoutLoop d fuel va bytes m = some (ok, m') → m.SameLists m' := by
    intro fuel
    induction fuel with
    | zero =>
      intro va bytes m m' ok h
      cases bytes <;> cases h <;> exact ⟨rfl, rfl⟩
    | succ fuel ih =>
      intro va bytes m m' ok h
      cases bytes with
      | nil =>
        cases h
        exact ⟨rfl, rfl⟩
      | cons byte rest =>
        unfold copyoutLoop at h
        split at h
        · cases h
        · cases h
          exact ⟨rfl, rfl⟩
        · exact (sameLists_setFrame m _ _).trans (ih _ _ _ _ _ h)
  exact hloop _ _ _ _ _ _ h

theorem sameLists_pushArgs {args : List (List UInt8)} {sp : Nat} {ustack : List Nat}
    {result : Option (Nat × List Nat)} (h : pushArgs d args sp ustack m = some (result, m')) :
    m.SameLists m' := by
  induction args generalizing sp ustack m with
  | nil =>
    cases h
    exact ⟨rfl, rfl⟩
  | cons arg rest ih =>
    unfold pushArgs at h
    split at h
    · cases h
      exact ⟨rfl, rfl⟩
    · simp only at h
      split at h
      · cases h
      · rename_i m1 hcopy
        cases h
        exact sameLists_copyout hcopy
      · rename_i m1 hcopy
        exact (sameLists_copyout hcopy).trans (ih h)

theorem Private.loadSegments [Reading read] {phdrs : List (Option Phdr)}
    {result : Option Nat} (h : Private read valid K U d m) (hsz : sz ≤ kernbase)
    (hload : loadSegments phdrs sz d m = some (result, d', m')) :
    Private read valid K U d' m' ∧ ∀ sz', result = some sz' → sz' ≤ kernbase := by
  induction phdrs generalizing sz d m with
  | nil =>
    cases hload
    exact ⟨h, by simpa using hsz⟩
  | cons entry rest ih =>
    cases entry with
    | none =>
      cases hload
      exact ⟨h, by simp⟩
    | some ph =>
      unfold Vm.loadSegments at hload
      split at hload
      · exact ih h hsz hload
      · split at hload
        · cases hload
          exact ⟨h, by simp⟩
        · split at hload
          · cases hload
          · rename_i d1 m1 halloc
            cases hload
            exact ⟨h.allocuvm halloc, by simp⟩
          · rename_i sz1 d1 m1 _ halloc
            have hsz1 := allocuvm_size hsz halloc
            split at hload
            · cases hload
            · rename_i m2 hloaduvm
              cases hload
              exact ⟨(h.allocuvm halloc).sameLists (sameLists_loaduvm hloaduvm), by simp⟩
            · rename_i m2 hloaduvm
              exact ih ((h.allocuvm halloc).sameLists (sameLists_loaduvm hloaduvm)) hsz1 hload

theorem rounded_le_kernbase (hsz : sz ≤ kernbase) : pages sz * pgsize ≤ kernbase := by
  have htop : upages * pgsize = kernbase := by decide
  rw [← htop]
  exact Nat.mul_le_mul_right _ (pages_le_upages hsz)

theorem sameLists_copyArgs {img : Image} {ok : Bool}
    (h : copyArgs img sz d m = some (ok, m')) : m.SameLists m' := by
  unfold copyArgs at h
  split at h
  · cases h
  · rename_i m1 hpush
    cases h
    exact sameLists_pushArgs hpush
  · rename_i sp ustack m1 hpush
    exact (sameLists_pushArgs hpush).trans (sameLists_copyout h)

theorem Private.setupStack [Reading read] {img : Image} {result : Option Nat}
    (h : Private read valid K U d m) (hsz : sz ≤ kernbase)
    (hstack : setupStack img sz d m = some (result, d', m')) :
    Private read valid K U d' m' ∧ ∀ sz', result = some sz' → sz' ≤ kernbase := by
  have hround := rounded_le_kernbase hsz
  unfold Vm.setupStack at hstack
  split at hstack
  · cases hstack
  · rename_i d1 m1 halloc
    cases hstack
    exact ⟨h.allocuvm halloc, by simp⟩
  · rename_i sz1 d1 m1 _ halloc
    have hsz1 := allocuvm_size hround halloc
    split at hstack
    · cases hstack
    · rename_i d2 hclear
      have h2 := (h.allocuvm halloc).clearpteu hclear
      split at hstack
      · cases hstack
      · rename_i m2 hargs
        cases hstack
        exact ⟨h2.sameLists (sameLists_copyArgs hargs), by simp⟩
      · rename_i m2 hargs
        cases hstack
        exact ⟨h2.sameLists (sameLists_copyArgs hargs), by simpa using hsz1⟩

theorem books_loadImage [Reading read] {img : Image} {result : Option (PageDir × Nat)}
    (hbooks : Books read valid m K U) (h : loadImage m img = some (result, m')) :
    match result with
    | none => Books read valid m' K U
    | some (d, sz) => Private read valid K U d m' ∧ sz ≤ kernbase := by
  unfold loadImage at h
  split at h
  · cases h
    exact hbooks
  · split at h
    · rename_i m1 hsetup
      cases h
      exact books_setupkvm_none hbooks hsetup
    · rename_i d1 m1 hsetup
      have h1 := private_setupkvm hbooks hsetup
      split at h
      · cases h
      · rename_i d2 m2 hsegments
        obtain ⟨m3, hfree, hresult⟩ := Option.map_eq_some_iff.mp h
        cases hresult
        exact (h1.loadSegments (Nat.zero_le _) hsegments).1.freevm hfree
      · rename_i sz d2 m2 hsegments
        obtain ⟨h2, hsz⟩ := h1.loadSegments (Nat.zero_le _) hsegments
        split at h
        · cases h
        · rename_i d3 m3 hstack
          obtain ⟨m4, hfree, hresult⟩ := Option.map_eq_some_iff.mp h
          cases hresult
          exact (h2.setupStack (hsz sz rfl) hstack).1.freevm hfree
        · rename_i sz' d3 m3 hstack
          cases h
          obtain ⟨h3, hsz'⟩ := h2.setupStack (hsz sz rfl) hstack
          exact ⟨h3, hsz' sz' rfl⟩

end

end Xv6.Vm
