import Mathlib.Tactic.Common

/-! `walkpgdir` and `mappages` over the words of the directory and of its tables, for
the whole address space. -/
namespace Xv6.Walk
open Function (update update_of_ne update_self)

abbrev Word := BitVec 32

def pdx (va : Word) : Word := (va >>> 22) &&& 0x3FF
def ptx (va : Word) : Word := (va >>> 12) &&& 0x3FF
def pgrounddown (a : Word) : Word := a &&& ~~~0xFFF
def pteAddr (pte : Word) : Word := pte &&& ~~~0xFFF
def pteFlags (pte : Word) : Word := pte &&& 0xFFF
def pteP : Word := 1
def p2v (a : Word) : Word := a + 0x80000000
def v2p (a : Word) : Word := a - 0x80000000

/-- The words of memory by their addresses, and the pages that the next calls of
`kalloc` return. When none is left, it returns 0. -/
structure State where
  mem : Word → Word
  free : List Word

/-- The address `&table[index]`. -/
def slot (table index : Word) : Word := table + 4 * index

/-- `memset(dst, 0, PGSIZE)`. -/
def memset (mem : Word → Word) (dst : Word) : Word → Word :=
  fun a => if a - dst < 4096 then 0 else mem a

def walkpgdir (s : State) (pgdir va : Word) (alloc : Bool) : Option Word × State :=
  let pde := slot pgdir (pdx va)
  if s.mem pde &&& pteP ≠ 0 then
    (some (slot (p2v (pteAddr (s.mem pde))) (ptx va)), s)
  else if alloc = false then
    (none, s)
  else
    match s.free with
    | [] => (none, s)
    | pgtab :: rest =>
      -- `PTE_P`, `PTE_W` and `PTE_U` are the bits of 7.
      (some (slot pgtab (ptx va)),
        ⟨update (memset s.mem pgtab) pde (v2p pgtab ||| 7), rest⟩)

/-- The loop of `mappages`. `none` is `panic("remap")`, `false` is the return value -1. -/
def mappagesLoop (pgdir last perm : Word) :
    Nat → Word → Word → State → Option (Bool × State)
  | 0, _, _, _ => none
  | fuel + 1, a, pa, s =>
    match walkpgdir s pgdir a true with
    | (none, s) => some (false, s)
    | (some pte, s) =>
      if s.mem pte &&& pteP ≠ 0 then none
      else
        let s := { s with mem := update s.mem pte (pa ||| perm ||| pteP) }
        if a = last then some (true, s)
        else mappagesLoop pgdir last perm fuel (a + 4096) (pa + 4096) s

/-- A loop that ran longer than there are pages would come back to one it has mapped. -/
def mappages (s : State) (pgdir va size pa perm : Word) : Option (Bool × State) :=
  mappagesLoop pgdir (pgrounddown (va + size - 1)) perm 0x100000 (pgrounddown va) pa s

/-- Where the entry of an address is. -/
def lookup (s : State) (pgdir va : Word) : Option Word :=
  (walkpgdir s pgdir va false).1

/-- The entry of an address, when it is present. -/
def translation (s : State) (pgdir va : Word) : Option Word :=
  ((lookup s pgdir va).map s.mem).filter fun pte => pte &&& pteP ≠ 0

def tableOf (s : State) (pgdir index : Word) : Option Word :=
  if s.mem (slot pgdir index) &&& pteP ≠ 0 then some (p2v (pteAddr (s.mem (slot pgdir index))))
  else none

abbrev Aligned (p : Word) : Prop := p.toNat % 4096 = 0

/-- The directory and its tables are different pages, and `kalloc` returns others. -/
structure Distinct (s : State) (pgdir : Word) : Prop where
  aligned : Aligned pgdir
  apart : ∀ i j t, i < 1024 → j < 1024 → tableOf s pgdir i = some t →
    tableOf s pgdir j = some t → i = j
  table : ∀ i t, i < 1024 → tableOf s pgdir i = some t → t ≠ pgdir
  fresh : ∀ q ∈ s.free, Aligned q ∧ q ≠ pgdir ∧ ∀ i < 1024, tableOf s pgdir i ≠ some q
  nodup : s.free.Nodup

/-- The first `count` pages from `va` on are mapped one after another from `pa` on, and
the other addresses are translated as before. -/
structure Mapped (s s' : State) (pgdir va pa perm : Word) (count : Nat) : Prop where
  mapped : ∀ u : Word, va.toNat / 4096 ≤ u.toNat / 4096 →
    u.toNat / 4096 < va.toNat / 4096 + count → ∃ pte, translation s' pgdir u = some pte ∧
      pteAddr pte = pa + (pgrounddown u - pgrounddown va) ∧ pteFlags pte = perm ||| pteP
  kept : ∀ u : Word, u.toNat / 4096 < va.toNat / 4096 ∨
    va.toNat / 4096 + count ≤ u.toNat / 4096 → translation s' pgdir u = translation s pgdir u

/-- Addresses in different pages have different entries. -/
def Apart (s : State) (pgdir : Word) : Prop :=
  ∀ u v p q : Word, u.toNat / 4096 ≠ v.toNat / 4096 → lookup s pgdir u = some p →
    lookup s pgdir v = some q → p ≠ q

/-- `mappages` does not panic. It maps all pages of the range, or returns -1 and has
mapped the first ones. -/
def MapsRange (s : State) (pgdir va size pa perm : Word) : Prop :=
  ∃ ok s' count, mappages s pgdir va size pa perm = some (ok, s') ∧
    va.toNat / 4096 + count ≤ (va + size - 1).toNat / 4096 + 1 ∧
    (ok = true ↔ va.toNat / 4096 + count = (va + size - 1).toNat / 4096 + 1) ∧
    Mapped s s' pgdir va pa perm count ∧ Apart s' pgdir

section

variable {x f : Word}

theorem toNat_and_1023 (x : Word) : (x &&& 0x3FF).toNat = x.toNat % 1024 :=
  Nat.and_two_pow_sub_one_eq_mod x.toNat 10

theorem toNat_pteFlags (x : Word) : (pteFlags x).toNat = x.toNat % 4096 :=
  Nat.and_two_pow_sub_one_eq_mod x.toNat 12

theorem toNat_pdx (va : Word) : (pdx va).toNat = va.toNat / 4194304 := by
  rw [pdx, toNat_and_1023, BitVec.toNat_ushiftRight, Nat.shiftRight_eq_div_pow]
  bv_omega

theorem toNat_ptx (va : Word) : (ptx va).toNat = va.toNat / 4096 % 1024 := by
  rw [ptx, toNat_and_1023, BitVec.toNat_ushiftRight, Nat.shiftRight_eq_div_pow]

theorem pteAddr_add_pteFlags (x : Word) : pteAddr x + pteFlags x = x := by
  have hdisjoint : pteAddr x &&& pteFlags x = 0 := by
    simp only [pteAddr, pteFlags]
    rw [BitVec.and_assoc, ← BitVec.and_assoc (~~~_), BitVec.and_comm (~~~_), BitVec.and_assoc x]
    simp
  rw [BitVec.add_eq_or_of_and_eq_zero _ _ hdisjoint, pteAddr, pteFlags,
    ← BitVec.and_or_distrib_left]
  exact BitVec.and_allOnes

theorem toNat_pteAddr (x : Word) : (pteAddr x).toNat = x.toNat / 4096 * 4096 := by
  have hsum := pteAddr_add_pteFlags x
  have hflags := toNat_pteFlags x
  have haddr : pteAddr x = x - pteFlags x := by bv_omega
  rw [haddr]
  bv_omega

theorem or_eq_add (hx : Aligned x) (hf : f.toNat < 4096) : x ||| f = x + f := by
  have hflags : pteFlags f = f := BitVec.eq_of_toNat_eq (by rw [toNat_pteFlags]; omega)
  have hzero : pteFlags x = 0 := BitVec.eq_of_toNat_eq (by rw [toNat_pteFlags]; exact hx)
  refine (BitVec.add_eq_or_of_and_eq_zero _ _ ?_).symm
  rw [← hflags, pteFlags, BitVec.and_comm f, ← BitVec.and_assoc, ← pteFlags, hzero]
  exact BitVec.zero_and

theorem pteAddr_or (hx : Aligned x) (hf : f.toNat < 4096) : pteAddr (x ||| f) = x := by
  have haddr := toNat_pteAddr (x + f)
  rw [or_eq_add hx hf]
  bv_omega

theorem pteFlags_or (hx : Aligned x) (hf : f.toNat < 4096) : pteFlags (x ||| f) = f := by
  have hflags := toNat_pteFlags (x + f)
  rw [or_eq_add hx hf]
  bv_omega

theorem present_or (x : Word) (hf : f &&& pteP ≠ 0) : (x ||| f) &&& pteP ≠ 0 := by
  rw [BitVec.and_or_distrib_right]
  exact fun h => hf (BitVec.or_eq_zero_iff.mp h).2

theorem slot_inj {p q i j : Word} (hp : Aligned p) (hq : Aligned q) (hi : i < 1024) (hj : j < 1024)
    (h : slot p i = slot q j) : p = q ∧ i = j := by
  unfold slot at h
  constructor <;> bv_omega

end

section

variable {s s' : State} {pgdir va t : Word}

theorem pdx_lt (va : Word) : pdx va < 1024 := by
  have hpdx := toNat_pdx va
  bv_omega

theorem ptx_lt (va : Word) : ptx va < 1024 := by
  have hptx := toNat_ptx va
  bv_omega

theorem lookup_eq : lookup s pgdir va = (tableOf s pgdir (pdx va)).map (slot · (ptx va)) := by
  by_cases hp : s.mem (slot pgdir (pdx va)) &&& pteP ≠ 0
  · simp only [lookup, walkpgdir, tableOf, if_pos hp, Option.map_some]
  · simp only [lookup, walkpgdir, tableOf, if_neg hp, if_true, Option.map_none]

theorem lookup_congr {u : Word} (h : u.toNat / 4096 = va.toNat / 4096) :
    lookup s pgdir u = lookup s pgdir va := by
  have hpdx : pdx u = pdx va := BitVec.eq_of_toNat_eq (by rw [toNat_pdx, toNat_pdx]; omega)
  have hptx : ptx u = ptx va := BitVec.eq_of_toNat_eq (by rw [toNat_ptx, toNat_ptx, h])
  rw [lookup_eq, lookup_eq, hpdx, hptx]

theorem aligned_of_tableOf {i : Word} (h : tableOf s pgdir i = some t) : Aligned t := by
  unfold tableOf at h
  split at h
  · have haddr := toNat_pteAddr (s.mem (slot pgdir i))
    rw [← Option.some.inj h]
    unfold Aligned p2v
    bv_omega
  · cases h

theorem memset_slot {mem : Word → Word} {p q j : Word} (hp : Aligned p) (hq : Aligned q)
    (hj : j < 1024) : memset mem q (slot p j) = if p = q then 0 else mem (slot p j) := by
  unfold memset slot
  by_cases hpq : p = q
  · rw [if_pos (by bv_omega), if_pos hpq]
  · rw [if_neg (by bv_omega), if_neg hpq]

namespace Distinct

theorem lookup_ne (h : Distinct s pgdir) : Apart s pgdir := by
  intro u v p q hne hu hv heq
  rw [lookup_eq] at hu hv
  obtain ⟨t, ht, rfl⟩ := Option.map_eq_some_iff.mp hu
  obtain ⟨t', ht', rfl⟩ := Option.map_eq_some_iff.mp hv
  obtain ⟨rfl, hptx⟩ := slot_inj (aligned_of_tableOf ht) (aligned_of_tableOf ht') (ptx_lt u)
    (ptx_lt v) heq
  have hpdx := h.apart _ _ _ (pdx_lt u) (pdx_lt v) ht ht'
  rw [← BitVec.toNat_inj, toNat_pdx, toNat_pdx] at hpdx
  rw [← BitVec.toNat_inj, toNat_ptx, toNat_ptx] at hptx
  omega

theorem store (h : Distinct s pgdir) {pte w : Word} (hva : lookup s pgdir va = some pte)
    (hw : w &&& pteP ≠ 0) : Distinct { s with mem := update s.mem pte w } pgdir ∧
      ∀ u, translation { s with mem := update s.mem pte w } pgdir u =
        if u.toNat / 4096 = va.toNat / 4096 then some w else translation s pgdir u := by
  have htable : ∀ i < 1024, tableOf { s with mem := update s.mem pte w } pgdir i =
      tableOf s pgdir i := by
    intro i hi
    rw [lookup_eq] at hva
    obtain ⟨t, ht, rfl⟩ := Option.map_eq_some_iff.mp hva
    have hne : slot pgdir i ≠ slot t (ptx va) := fun heq => h.table _ t (pdx_lt va) ht
      (slot_inj h.aligned (aligned_of_tableOf ht) hi (ptx_lt va) heq).1.symm
    simp only [tableOf, update_of_ne hne]
  have hlookup : ∀ u, lookup { s with mem := update s.mem pte w } pgdir u =
      lookup s pgdir u := fun u => by rw [lookup_eq, lookup_eq, htable _ (pdx_lt u)]
  refine ⟨⟨h.aligned, ?_, ?_, ?_, h.nodup⟩, fun u => ?_⟩
  · intro i j t hi hj
    rw [htable i hi, htable j hj]
    exact h.apart i j t hi hj
  · intro i t hi
    rw [htable i hi]
    exact h.table i t hi
  · intro q hq
    refine ⟨(h.fresh q hq).1, (h.fresh q hq).2.1, fun i hi => ?_⟩
    rw [htable i hi]
    exact (h.fresh q hq).2.2 i hi
  · simp only [translation, hlookup]
    split
    · rename_i hpage
      simpa [lookup_congr hpage, hva] using hw
    · rename_i hpage
      cases hu : lookup s pgdir u with
      | none => rfl
      | some p =>
        simp only [Option.map_some, update_of_ne (h.lookup_ne u va p pte hpage hu hva)]

theorem grow (h : Distinct s pgdir) {rest : List Word} (hnone : tableOf s pgdir (pdx va) = none)
    (hfree : s.free = t :: rest)
    (hs' : s' = ⟨update (memset s.mem t) (slot pgdir (pdx va)) (v2p t ||| 7), rest⟩) :
    Distinct s' pgdir ∧ lookup s' pgdir va = some (slot t (ptx va)) ∧
      ∀ u, translation s' pgdir u = translation s pgdir u := by
  obtain ⟨⟨ht, htdir, hfresh⟩, hothers⟩ := List.forall_mem_cons.mp (hfree ▸ h.fresh)
  have hnodup : t ∉ rest ∧ rest.Nodup := List.nodup_cons.mp (hfree ▸ h.nodup)
  have htable : ∀ i < 1024, tableOf s' pgdir i =
      if i = pdx va then some t else tableOf s pgdir i := by
    intro i hi
    split
    · have hphys : Aligned (v2p t) := by
        unfold Aligned v2p
        bv_omega
      simp only [hs', tableOf, ‹i = pdx va›, update_self]
      rw [if_pos (present_or _ (by decide)), pteAddr_or hphys (by decide), p2v, v2p,
        BitVec.sub_add_cancel]
    · have hslot : slot pgdir i ≠ slot pgdir (pdx va) := fun heq =>
        ‹¬ i = pdx va› (slot_inj h.aligned h.aligned hi (pdx_lt va) heq).2
      simp only [hs', tableOf, update_of_ne hslot, memset_slot h.aligned ht hi,
        if_neg htdir.symm]
  refine ⟨⟨h.aligned, fun i j q hi hj hq hq' => ?_, fun i q hi hq => ?_, fun q hq => ?_, ?_⟩, ?_,
    fun u => ?_⟩
  · rw [htable i hi] at hq
    rw [htable j hj] at hq'
    split at hq <;> split at hq'
    · exact ‹i = pdx va›.trans ‹j = pdx va›.symm
    · exact absurd (hq'.trans hq.symm) (hfresh j hj)
    · exact absurd (hq.trans hq'.symm) (hfresh i hi)
    · exact h.apart i j q hi hj hq hq'
  · rw [htable i hi] at hq
    split at hq
    · exact Option.some.inj hq ▸ htdir
    · exact h.table i q hi hq
  · rw [hs'] at hq
    obtain ⟨halign, hdir, hunused⟩ := hothers q hq
    refine ⟨halign, hdir, fun i hi => ?_⟩
    rw [htable i hi]
    split
    · exact fun heq => hnodup.1 (Option.some.inj heq ▸ hq)
    · exact hunused i hi
  · rw [hs']
    exact hnodup.2
  · rw [lookup_eq, htable _ (pdx_lt va), if_pos rfl, Option.map_some]
  · simp only [translation, lookup_eq, htable _ (pdx_lt u)]
    have hdir : ∀ q, Aligned q → q ≠ pgdir → s'.mem (slot q (ptx u)) =
        if q = t then 0 else s.mem (slot q (ptx u)) := by
      intro q hq hne
      have hslot : slot q (ptx u) ≠ slot pgdir (pdx va) := fun heq =>
        hne (slot_inj hq h.aligned (ptx_lt u) (pdx_lt va) heq).1
      simp only [hs', update_of_ne hslot, memset_slot hq ht (ptx_lt u)]
    split
    · rw [‹pdx u = pdx va›, hnone]
      simp [hdir t ht htdir]
    · cases hq : tableOf s pgdir (pdx u) with
      | none => rfl
      | some q =>
        have hqt : q ≠ t := fun heq => hfresh _ (pdx_lt u) (heq ▸ hq)
        simp only [Option.map_some, if_neg hqt,
          hdir q (aligned_of_tableOf hq) (h.table _ q (pdx_lt u) hq)]

theorem walkpgdir_alloc (h : Distinct s pgdir) (va : Word) :
    walkpgdir s pgdir va true = (none, s) ∨ ∃ pte s', walkpgdir s pgdir va true = (some pte, s') ∧
      Distinct s' pgdir ∧ lookup s' pgdir va = some pte ∧
      ∀ u, translation s' pgdir u = translation s pgdir u := by
  by_cases hp : s.mem (slot pgdir (pdx va)) &&& pteP ≠ 0
  · simp only [walkpgdir, if_pos hp]
    refine Or.inr ⟨_, s, rfl, h, ?_, fun _ => rfl⟩
    simp only [lookup_eq, tableOf, if_pos hp, Option.map_some]
  · have hnone : tableOf s pgdir (pdx va) = none := by simp only [tableOf, if_neg hp]
    simp only [walkpgdir, if_neg hp, Bool.true_eq_false, if_false]
    cases hfree : s.free with
    | nil => exact Or.inl rfl
    | cons t rest => exact Or.inr ⟨_, _, rfl, h.grow hnone hfree rfl⟩

end Distinct

end

section

variable {s s1 s' : State} {pgdir a pa perm : Word}

theorem translation_none {va pte : Word} (h : translation s pgdir va = none)
    (hva : lookup s pgdir va = some pte) : s.mem pte &&& pteP = 0 := by
  rw [translation, hva, Option.map_some, Option.filter_eq_none_iff] at h
  simpa using h _ rfl

theorem Mapped.zero : Mapped s s pgdir a pa perm 0 :=
  ⟨fun u hlo hhi => by omega, fun _ _ => rfl⟩

theorem Mapped.cons {w : Word} {count : Nat}
    (hfits : count = 0 ∨ a.toNat + 4096 < 0x100000000)
    (hfirst : ∀ u : Word, translation s1 pgdir u =
      if u.toNat / 4096 = a.toNat / 4096 then some w else translation s pgdir u)
    (haddr : pteAddr w = pa) (hflags : pteFlags w = perm ||| pteP)
    (h : Mapped s1 s' pgdir (a + 4096) (pa + 4096) perm count) :
    Mapped s s' pgdir a pa perm (count + 1) := by
  refine ⟨fun u hlo hhi => ?_, fun u hu => ?_⟩
  · have hu : (pgrounddown u).toNat = _ := toNat_pteAddr u
    have ha : (pgrounddown a).toNat = _ := toNat_pteAddr a
    by_cases hpage : u.toNat / 4096 = a.toNat / 4096
    · refine ⟨w, ?_, ?_, hflags⟩
      · rw [h.kept u (by bv_omega), hfirst u, if_pos hpage]
      · rw [haddr]
        bv_omega
    · have ha' : (pgrounddown (a + 4096)).toNat = _ := toNat_pteAddr (a + 4096)
      obtain ⟨pte, hpte, haddr', hflags'⟩ := h.mapped u (by bv_omega) (by bv_omega)
      refine ⟨pte, hpte, ?_, hflags'⟩
      rw [haddr']
      bv_omega
  · rw [h.kept u (by bv_omega), hfirst u, if_neg (by omega)]

theorem mappagesLoop_mapped {fuel n : Nat} {last : Word} (h : Distinct s pgdir)
    (ha : Aligned a) (hlast : last.toNat = a.toNat + 4096 * n) (hfuel : n < fuel)
    (hpa : Aligned pa) (hperm : perm.toNat < 4096)
    (habsent : ∀ u : Word, a.toNat / 4096 ≤ u.toNat / 4096 →
      u.toNat / 4096 ≤ a.toNat / 4096 + n → translation s pgdir u = none) :
    ∃ ok s' count, mappagesLoop pgdir last perm fuel a pa s = some (ok, s') ∧
      Distinct s' pgdir ∧ count ≤ n + 1 ∧ (ok = true ↔ count = n + 1) ∧
      Mapped s s' pgdir a pa perm count := by
  induction fuel generalizing n a pa s with
  | zero => exact absurd hfuel (Nat.not_lt_zero n)
  | succ fuel ih =>
    unfold mappagesLoop
    rcases h.walkpgdir_alloc a with hwalk | ⟨pte, s1, hwalk, h1, hlookup, hsame⟩
    · rw [hwalk]
      exact ⟨false, s, 0, rfl, h, Nat.zero_le _, by simp, .zero⟩
    · have hnone := habsent a (Nat.le_refl _) (Nat.le_add_right _ n)
      have hfree := translation_none ((hsame a).trans hnone) hlookup
      have hflags : (perm ||| pteP).toNat < 4096 :=
        Nat.or_lt_two_pow (n := 12) hperm (by decide)
      have hpresent : (pa ||| (perm ||| pteP)) &&& pteP ≠ 0 :=
        present_or _ (present_or perm (by decide))
      obtain ⟨h2, hstore⟩ := h1.store hlookup hpresent
      simp only [hsame] at hstore
      simp only [hwalk, hfree, ne_eq, not_true_eq_false, if_false, BitVec.or_assoc]
      split
      · obtain rfl : n = 0 := by bv_omega
        exact ⟨true, _, 1, rfl, h2, Nat.le_refl 1, by simp, .cons (Or.inl rfl) hstore
          (pteAddr_or hpa hflags) (pteFlags_or hpa hflags) .zero⟩
      · obtain ⟨m, rfl⟩ : ∃ m, n = m + 1 := Nat.exists_eq_succ_of_ne_zero (by bv_omega)
        have hnext : (a + 4096).toNat = a.toNat + 4096 := by bv_omega
        have hrest : ∀ u : Word, (a + 4096).toNat / 4096 ≤ u.toNat / 4096 →
            u.toNat / 4096 ≤ (a + 4096).toNat / 4096 + m → translation _ pgdir u = none :=
          fun u hlo hhi => by
            rw [hstore u, if_neg (by omega), habsent u (by omega) (by omega)]
        obtain ⟨ok, s', count, hloop, hs', hcount, hok, hmapped⟩ := ih h2 (by omega) (by omega)
          (by omega) (show Aligned (pa + 4096) by unfold Aligned at *; bv_omega) hrest
        exact ⟨ok, s', count + 1, hloop, hs', by omega, by rw [hok]; omega,
          .cons (Or.inr (by omega)) hstore (pteAddr_or hpa hflags) (pteFlags_or hpa hflags) hmapped⟩

end

/-- The two levels are a map from pages to entries, to which `mappages` adds the range. -/
theorem mappages_maps {s : State} {pgdir va size pa perm : Word} (h : Distinct s pgdir)
    (hsize : 0 < size.toNat) (hwrap : va.toNat + size.toNat ≤ 0x100000000) (hpa : Aligned pa)
    (hperm : perm.toNat < 4096)
    (habsent : ∀ u : Word, va.toNat / 4096 ≤ u.toNat / 4096 →
      u.toNat / 4096 ≤ (va + size - 1).toNat / 4096 → translation s pgdir u = none) :
    Apart s pgdir ∧ MapsRange s pgdir va size pa perm := by
  have hfirst : (pgrounddown va).toNat = _ := toNat_pteAddr va
  have hround : pgrounddown (pgrounddown va) = pgrounddown va := by
    have hagain : (pgrounddown (pgrounddown va)).toNat = _ := toNat_pteAddr (pgrounddown va)
    bv_omega
  have hlast : (pgrounddown (va + size - 1)).toNat = (pgrounddown va).toNat +
      4096 * ((va + size - 1).toNat / 4096 - va.toNat / 4096) := by
    have hround : (pgrounddown (va + size - 1)).toNat = _ := toNat_pteAddr (va + size - 1)
    bv_omega
  have hfuel : (va + size - 1).toNat / 4096 - va.toNat / 4096 < 0x100000 := by bv_omega
  have hle : va.toNat ≤ (va + size - 1).toNat := by bv_omega
  obtain ⟨ok, s', count, hloop, hs', hcount, hok, hmapped⟩ := mappagesLoop_mapped h
    (by unfold Aligned; omega) hlast hfuel hpa hperm
    fun u hlo hhi => habsent u (by omega) (by omega)
  refine ⟨h.lookup_ne, ok, s', count, hloop, by omega, by rw [hok]; omega,
    ⟨fun u hlo hhi => ?_, fun u hu => hmapped.kept u (by omega)⟩, hs'.lookup_ne⟩
  have hu := hmapped.mapped u (by omega) (by omega)
  rwa [hround] at hu

/-- An empty directory, and one page for a table. -/
def emptyDir : State := ⟨fun _ => 0, [0x2000]⟩

/-- The last two pages of the address space. -/
theorem mappages_maps_last_pages : MapsRange emptyDir 0x1000 0xFFFFEFFF 4097 0xFE000000 2 := by
  have htable : ∀ i, tableOf emptyDir 0x1000 i = none := by simp [tableOf, emptyDir]
  have hdistinct : Distinct emptyDir 0x1000 := by
    refine ⟨rfl, fun i j t _ _ hi => ?_, fun i t _ hi => ?_, fun q hq => ?_, by decide⟩
    · cases (htable i).symm.trans hi
    · cases (htable i).symm.trans hi
    · obtain rfl := List.mem_singleton.mp hq
      exact ⟨rfl, by decide, fun i _ hi => by cases (htable i).symm.trans hi⟩
  refine (mappages_maps hdistinct (by decide) (by decide) rfl (by decide) fun u _ _ => ?_).2
  rw [translation, lookup_eq, htable]
  rfl

end Xv6.Walk
