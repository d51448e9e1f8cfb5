import Xv6.Vm.NoPanic

/-! Which pages the loop of `deallocuvm` comes to. At a missing table it jumps by
a whole table from where it stands, over the beginning of the next one. -/
namespace Xv6.Vm

/-- The frames of the pages from `lo` on below `hi`. -/
def PageDir.frames (d : PageDir) (lo hi : Nat) : List Nat :=
  (List.range' lo (hi - lo)).filterMap d.maps

/-- The scan from page `lo` comes to all pages below `hi` that are there. -/
def Complete (d : PageDir) (lo hi : Nat) : Prop :=
  ∀ v, lo ≤ v → v < hi → d.present v ≠ none → Reached d lo v

/-- The pages of the range are gone, and no others. -/
structure Unmapped (d d' : PageDir) (lo hi : Nat) : Prop where
  gone : ∀ v, lo ≤ v → v < hi → d'.present v = none
  kept : ∀ v, v < lo ∨ hi ≤ v → d'.present v = d.present v

/-- Each page of the range is unmapped, and freed once. -/
def DeallocExact (m : Mem) (d : PageDir) (oldsz newsz : Nat) : Prop :=
  ∃ d' m', deallocuvm m d oldsz newsz = some (newsz, d', m') ∧
    Unmapped d d' (pages newsz) (pages oldsz) ∧
    m'.freelist = (d.frames (pages newsz) (pages oldsz)).reverse ++ m.freelist

/-- Each page of the range is unmapped, its counter goes down by one, and it is
freed when that makes it 0. -/
def CowDeallocExact (m : Mem) (d : PageDir) (oldsz newsz : Nat) : Prop :=
  ∃ d' m', cowDeallocuvm m d oldsz newsz = some (newsz, d', m') ∧
    Unmapped d d' (pages newsz) (pages oldsz) ∧
    (∀ q, m'.counters q =
      if q ∈ d.frames (pages newsz) (pages oldsz) then m.counters q - 1 else m.counters q) ∧
    m'.freelist = ((d.frames (pages newsz) (pages oldsz)).filter (m.counters · = 1)).reverse ++
      m.freelist

section

variable {release : Mem → Nat → Option Mem} {v last : Nat} {d d' : PageDir} {m m' : Mem}

theorem frames_succ (hv : v < last) :
    d.frames v last = (d.maps v).toList ++ d.frames (v + 1) last := by
  have hlength : last - v = last - (v + 1) + 1 := by omega
  rw [PageDir.frames, hlength, List.range'_succ, List.filterMap_cons]
  cases d.maps v <;> rfl

theorem frames_skip {mid : Nat} (hmid : v ≤ mid)
    (hnone : ∀ u, v ≤ u → u < mid → u < last → d.present u = none) :
    d.frames v last = d.frames mid last := by
  induction mid, hmid using Nat.le_induction with
  | base => rfl
  | succ mid hmid ih =>
    rw [ih fun u hlo hhi => hnone u hlo (by omega)]
    by_cases hlast : mid < last
    · have hmaps : d.maps mid = none := by
        simp [PageDir.maps, hnone mid hmid (Nat.lt_succ_self mid) hlast]
      rw [frames_succ hlast, hmaps]
      rfl
    · simp [PageDir.frames, show last - mid = 0 by omega, show last - (mid + 1) = 0 by omega]

theorem frames_congr {d1 : PageDir} {lo : Nat} (h : ∀ u, lo ≤ u → d1.present u = d.present u) :
    d1.frames lo last = d.frames lo last := by
  refine List.filterMap_congr fun u hu => maps_congr (h u ?_)
  exact (List.mem_range'_1.mp hu).1

theorem Unmaps.releases (h : Unmaps release last v d m d' m') (hall : Complete d v last) :
    (d.frames v last).foldlM release m = some m' := by
  induction h with
  | done hv => simp [PageDir.frames, show _ - _ = 0 from Nat.sub_eq_zero_of_le hv]
  | @skip w d _ _ _ hlt hnone hrest ih =>
    rw [frames_skip (Nat.le_add_right w nptentries)]
    · exact ih fun u hlo hhi hu => (reached_skip hnone).mpr (hall u (by omega) hhi hu)
    · intro u hlo hhi hlast
      by_contra hu
      exact hu (absent_of_reached hnone hlo hhi (hall u hlo hlast hu))
  | @absent w d _ _ _ hlt htable habsent hrest ih =>
    rw [frames_succ hlt, PageDir.maps, habsent]
    exact ih fun u hlo _ _ => reached_next htable hlo
  | @page w d m m1 d' m' pte hlt hentry hm hrest ih =>
    have hrest' := ih fun u hlo _ _ => reached_next (isSome_setPte hentry) hlo
    rw [frames_congr fun u hlo => present_setPte_of_ne (by omega)] at hrest'
    rw [frames_succ hlt, PageDir.maps, hentry]
    simp [hm, hrest']

end

section

variable {items : List Nat} {m m' : Mem}

theorem freelist_kfree (h : items.foldlM kfree m = some m') :
    m'.freelist = items.reverse ++ m.freelist := by
  induction items generalizing m with
  | nil =>
    cases h
    rfl
  | cons q items ih =>
    rw [List.foldlM_cons] at h
    obtain ⟨m1, hm1, hrest⟩ := Option.bind_eq_some_iff.mp h
    rw [ih hrest, kfree_some hm1]
    simp

theorem cowRelease_some {q : Nat} (h : cowRelease m q = some m') :
    m'.counters = Function.update m.counters q (m.counters q - 1) ∧
      m'.freelist = if m.counters q = 1 then q :: m.freelist else m.freelist := by
  simp only [cowRelease, Mem.setCounter, Function.update_self] at h
  split at h
  · rename_i hzero
    rw [kfree_some h, if_pos (by omega)]
    exact ⟨rfl, rfl⟩
  · cases h
    rw [if_neg (by omega)]
    exact ⟨rfl, rfl⟩

theorem counters_cowRelease (hnodup : items.Nodup) (h : items.foldlM cowRelease m = some m') :
    (∀ q, m'.counters q = if q ∈ items then m.counters q - 1 else m.counters q) ∧
      m'.freelist = (items.filter (m.counters · = 1)).reverse ++ m.freelist := by
  induction items generalizing m with
  | nil =>
    cases h
    simp
  | cons q items ih =>
    rw [List.foldlM_cons] at h
    obtain ⟨m1, hm1, hrest⟩ := Option.bind_eq_some_iff.mp h
    obtain ⟨hq, hnodup'⟩ := List.nodup_cons.mp hnodup
    obtain ⟨hcounters, hfree⟩ := cowRelease_some hm1
    obtain ⟨hcounters', hfree'⟩ := ih hnodup' hrest
    have hothers : ∀ r ∈ items, m1.counters r = m.counters r := by
      intro r hr
      rw [hcounters, Function.update_of_ne]
      rintro rfl
      exact hq hr
    constructor
    · intro r
      rw [hcounters', hcounters]
      by_cases hrq : r = q
      · simp [hrq, hq]
      · simp [hrq]
    · have hfilter : items.filter (m1.counters · = 1) = items.filter (m.counters · = 1) :=
        List.filter_congr fun r hr => by rw [hothers r hr]
      rw [hfree', hfree, hfilter, List.filter_cons]
      by_cases hone : m.counters q = 1 <;> simp [hone]

end

/-- The present pages of the directory have frames of their own, which `kfree`
accepts. -/
structure UserPages (m : Mem) (d : PageDir) : Prop where
  range : ∀ u pte, d.present u = some pte → InRange m.kend pte.ppn
  distinct : ∀ u v q, d.maps u = some q → d.maps v = some q → u = v

section

variable {m : Mem} {d : PageDir} {oldsz newsz : Nat} {release : Mem → Nat → Option Mem}

theorem unmapRange_exact_iff (hlt : newsz < oldsz) (hd : UserPages m d)
    (hrelease : Releases release m.kend) {released : Mem → Prop}
    (hreleased : ∀ m', (d.frames (pages newsz) (pages oldsz)).foldlM release m = some m' →
      released m') :
    (∃ d' m', unmapRange release m d oldsz newsz = some (newsz, d', m') ∧
      Unmapped d d' (pages newsz) (pages oldsz) ∧ released m') ↔
      Complete d (pages newsz) (pages oldsz) := by
  obtain ⟨⟨sz, d', m'⟩, hresult⟩ := unmapRange_total hrelease oldsz newsz rfl hd.range
  have hloop : Unmaps release (pages oldsz) (pages newsz) d m d' m' := by
    rcases unmapRange_cases hresult with ⟨hle, _⟩ | ⟨_, hloop⟩
    · omega
    · exact hloop
  obtain rfl : newsz = sz := by
    simp only [unmapRange, if_neg (Nat.not_le.mpr hlt)] at hresult
    obtain ⟨_, _, heq⟩ := Option.map_eq_some_iff.mp hresult
    exact (Prod.mk.inj heq).1
  rw [hresult]
  constructor
  · rintro ⟨d1, m1, heq, hunmapped, -⟩
    cases heq
    intro v hlo hhi hpresent
    by_contra hnot
    exact hpresent (((hloop.present_eq hlo hhi).2 hnot).symm.trans (hunmapped.gone v hlo hhi))
  · intro hall
    refine ⟨d', m', rfl, ⟨fun v hlo hhi => ?_, fun v hv => hloop.outside hv⟩,
      hreleased m' (hloop.releases hall)⟩
    by_contra hpresent
    obtain ⟨pte, hpte⟩ := Option.ne_none_iff_exists'.mp hpresent
    exact hpresent ((hloop.present_eq hlo hhi).1 (hall v hlo hhi (by simp [hloop.sub hpte])))

/-- `deallocuvm` and `cow_deallocuvm` unmap exactly the requested range, and
release each of its pages once, just when the scan comes to all of them. -/
theorem dealloc_exact_iff (hlt : newsz < oldsz) (hd : UserPages m d) :
    (DeallocExact m d oldsz newsz ↔ Complete d (pages newsz) (pages oldsz)) ∧
      (CowDeallocExact m d oldsz newsz ↔ Complete d (pages newsz) (pages oldsz)) := by
  have hnodup : (d.frames (pages newsz) (pages oldsz)).Nodup :=
    List.Nodup.filterMap (fun u v q hu hv => hd.distinct u v q hu hv) List.nodup_range'
  exact ⟨unmapRange_exact_iff hlt hd (releases_kfree _) fun _ => freelist_kfree,
    unmapRange_exact_iff hlt hd (releases_cowRelease _) fun _ => counters_cowRelease hnodup⟩

end

/-- A directory without its first table that maps page `v` of the second one to
frame 300. -/
def secondTable (v : Nat) : PageDir where
  page := 0
  pde := fun i =>
    if i = 1 then some ⟨0, fun j => if j = ptx v then ⟨300, true, userFlags⟩ else Pte.zero⟩ else
      none
  ktables := []

def usedMem : Mem where
  kend := 256
  freelist := []
  counters := fun _ => 1
  frame := fun _ => zeroPage
  kfailed := false

theorem secondTable_present {u v : Nat} {pte : Pte} (hv : pdx v = 1)
    (h : (secondTable v).present u = some pte) : u = v ∧ pte.ppn = 300 := by
  obtain ⟨hlookup, hp⟩ := present_eq_some.mp h
  obtain ⟨table, htable, rfl⟩ := Option.map_eq_some_iff.mp hlookup
  simp only [secondTable] at htable
  split at htable
  · rename_i hu
    cases htable
    by_cases hptx : ptx u = ptx v
    · exact ⟨pdx_ptx_inj (hu.trans hv.symm) hptx, by simp [hptx]⟩
    · simp [hptx, Pte.zero] at hp
  · cases htable

theorem secondTable_pages {v : Nat} (hv : pdx v = 1) : UserPages usedMem (secondTable v) := by
  refine ⟨fun u pte hu => ?_, fun u w q hu hw => ?_⟩
  · rw [(secondTable_present hv hu).2]
    exact ⟨by decide, by decide, by decide⟩
  · obtain ⟨pte, hu, -⟩ := maps_eq_some.mp hu
    obtain ⟨pte', hw, -⟩ := maps_eq_some.mp hw
    rw [(secondTable_present hv hu).1, (secondTable_present hv hw).1]

theorem dealloc_exact_secondTable :
    UserPages usedMem (secondTable 1025) ∧ Complete (secondTable 1025) 1 1026 ∧
      DeallocExact usedMem (secondTable 1025) (1026 * pgsize) pgsize := by
  have hpages := secondTable_pages (v := 1025) rfl
  have hall : Complete (secondTable 1025) 1 1026 := by
    intro v _ _ hpresent
    obtain ⟨pte, hpte⟩ := Option.ne_none_iff_exists'.mp hpresent
    rw [(secondTable_present rfl hpte).1]
    exact Or.inl (by decide)
  exact ⟨hpages, hall, (dealloc_exact_iff (by decide) hpages).1.mpr hall⟩

/-- From page 1 the scan jumps over page 1024, which stays. -/
theorem deallocuvm_leaves_page : UserPages usedMem (secondTable 1024) ∧
      deallocuvm usedMem (secondTable 1024) (1025 * pgsize) pgsize =
        some (pgsize, secondTable 1024, usedMem) ∧
      (secondTable 1024).present 1024 = some ⟨300, true, userFlags⟩ :=
  ⟨secondTable_pages rfl, rfl, rfl⟩

end Xv6.Vm
