import Xv6.Lib.Transition
import Xv6.Vm.NoPanic

/-! `growproc` while the rest of the machine uses the allocator: each call of
`kalloc` finds a free list of its own, so that any of them can fail. -/
namespace Xv6.Vm
open Function

/-- The free lists that the two calls of `kalloc` in a turn of `allocuvm` find,
one for the page and one in `walkpgdir` for its table. -/
structure FreeLists where
  page : List Nat
  table : List Nat

/-- One turn of the loop of `allocuvm`, with the result of the `kalloc` for the
page. The result of `mappages` is not looked at. -/
def allocTurn (free : FreeLists) (v : Nat) (d : PageDir) (m : Mem) :
    Option (Bool × PageDir × Mem) :=
  match kalloc { m with freelist := free.page } with
  | (none, m) => some (false, d, m)
  | (some q, m) =>
    match mappages ({ m with freelist := free.table }.setFrame q zeroPage) d (v * pgsize) pgsize
      (q * pgsize) userFlags with
    | none => none
    | some (_, d, m) => some (true, d, m.setCounter q 1)

def allocTurns (free : Nat → FreeLists) :
    Nat → Nat → PageDir → Mem → Option (Bool × PageDir × Mem)
  | 0, _, d, m => some (true, d, m)
  | n + 1, v, d, m =>
    match allocTurn (free v) v d m with
    | none => none
    | some (false, d, m) => some (false, d, m)
    | some (true, d, m) => allocTurns free n (v + 1) d m

structure Space where
  sz : Nat
  pgdir : PageDir
  mem : Mem

def Space.allocuvm (free : Nat → FreeLists) (s : Space) (newsz : Nat) :
    Option (Nat × PageDir × Mem) :=
  if kernbase ≤ newsz then some (0, s.pgdir, s.mem)
  else if newsz < s.sz then some (s.sz, s.pgdir, s.mem)
  else match allocTurns free (pages newsz - pages s.sz) (pages s.sz) s.pgdir s.mem with
    | none => none
    | some (true, d, m) => some (newsz, d, m)
    | some (false, d, m) =>
      match deallocuvm m d newsz s.sz with
      | none => none
      | some (_, d, m) => some (0, d, m)

def Space.growproc (free : Nat → FreeLists) (s : Space) (n : Int) : Option (Space × Bool) :=
  if 0 < n then
    match s.allocuvm free (grownSize s.sz n) with
    | none => none
    | some (sz, d, m) => some (if sz = 0 then (⟨s.sz, d, m⟩, false) else (⟨sz, d, m⟩, true))
  else if n < 0 then
    match deallocuvm s.mem s.pgdir s.sz (grownSize s.sz n) with
    | none => none
    | some (sz, d, m) => some (if sz = 0 then (⟨s.sz, d, m⟩, false) else (⟨sz, d, m⟩, true))
  else some (s, true)

def Space.byte (s : Space) (va : Nat) : Option UInt8 :=
  (s.pgdir.present (va / pgsize)).map fun pte => s.mem.frame pte.ppn (offset va)

/-- The pages mapped are exactly those below the size, each to a frame of its own. -/
structure Space.Whole (s : Space) : Prop where
  size : s.sz ≤ kernbase
  dense : s.pgdir.Dense (pages s.sz)
  once : ∀ u v q, s.pgdir.maps u = some q → s.pgdir.maps v = some q → u = v

def Spare (free : Nat → FreeLists) (d : PageDir) : Prop :=
  ∀ v, ∀ q ∈ (free v).page, ∀ u, d.maps u ≠ some q

/-- Where a page from `lo` to `hi` is the first one of its table and the table is not there,
`walkpgdir` finds a page for it. -/
def TablesFound (free : Nat → FreeLists) (d : PageDir) (lo hi : Nat) : Prop :=
  ∀ v, lo ≤ v → v < hi → v % nptentries = 0 → d.pde (pdx v) = none → (free v).table ≠ []

/-- A growing call is refused for its size, or runs out of pages, or gets the page tables it
lacks; a shrinking one leaves some memory, or finds none. -/
def GrowsExactly (free : Nat → FreeLists) (s : Space) (n : Int) : Prop :=
  if 0 < n then
    kernbase ≤ grownSize s.sz n ∨
      (∃ v, pages s.sz ≤ v ∧ v < pages (grownSize s.sz n) ∧ (free v).page = []) ∨
      TablesFound free s.pgdir (pages s.sz) (pages (grownSize s.sz n))
  else n < 0 → s.sz = 0 ∨ 0 < s.sz + n

section

variable {d : PageDir}

/-- While nobody else uses the allocator, each call of `kalloc` finds what the one before it
has left. -/
theorem exists_allocTurns (n v : Nat) (d : PageDir) (m : Mem) :
    ∃ free : Nat → FreeLists, ∀ free', (∀ u, v ≤ u → u < v + n → free' u = free u) →
      allocTurns free' n v d m = allocLoop n v d m := by
  induction n generalizing v d m with
  | zero => exact ⟨fun _ => ⟨[], []⟩, fun _ _ => rfl⟩
  | succ n ih =>
    rcases hkalloc : kalloc m with ⟨q, m1⟩
    have hsame : kalloc { m with freelist := m.freelist } = (q, m1) := hkalloc
    cases q with
    | none =>
      refine ⟨fun _ => ⟨m.freelist, []⟩, fun free' hfree => ?_⟩
      simp only [allocTurns, allocTurn, allocLoop, hfree v le_rfl (by omega), hsame]
    | some q =>
      have hturn : allocTurn ⟨m.freelist, m1.freelist⟩ v d m =
          (mappages (m1.setFrame q zeroPage) d (v * pgsize) pgsize (q * pgsize) userFlags).map
            fun result => (true, result.2.1, result.2.2.setCounter q 1) := by
        simp only [allocTurn, hsame]
        cases mappages (m1.setFrame q zeroPage) d (v * pgsize) pgsize (q * pgsize) userFlags with
        | none | some result => rfl
      cases hmap : mappages (m1.setFrame q zeroPage) d (v * pgsize) pgsize (q * pgsize)
          userFlags with
      | none =>
        refine ⟨fun _ => ⟨m.freelist, m1.freelist⟩, fun free' hfree => ?_⟩
        simp only [allocTurns, allocLoop, hfree v le_rfl (by omega), hturn, hkalloc, hmap,
          Option.map_none]
      | some result =>
        obtain ⟨rest, hrest⟩ := ih (v + 1) result.2.1 (result.2.2.setCounter q 1)
        refine ⟨update rest v ⟨m.freelist, m1.freelist⟩, fun free' hfree => ?_⟩
        have hfirst := (hfree v le_rfl (by omega)).trans (update_self ..)
        have hlater := hrest free' fun u hlo hhi =>
          (hfree u (by omega) (by omega)).trans (update_of_ne (by omega) ..)
        simp only [allocTurns, allocLoop, hfirst, hturn, hkalloc, hmap, Option.map_some, hlater]

theorem exists_allocuvm (m : Mem) (d : PageDir) (sz newsz : Nat) :
    ∃ free : Nat → FreeLists, ∀ free', (∀ v, pages sz ≤ v → v < pages newsz → free' v = free v) →
      Space.allocuvm free' ⟨sz, d, m⟩ newsz = allocuvm m d sz newsz := by
  obtain ⟨free, hturns⟩ := exists_allocTurns (pages newsz - pages sz) (pages sz) d m
  refine ⟨free, fun free' hfree => ?_⟩
  simp only [Space.allocuvm, hturns free' fun u hlo hhi => hfree u hlo (by omega)]
  rfl

def Machine.put (s : Machine) (p : Slot) (space : Space) : Machine :=
  { s.setProc p { s.procs p with pgdir := some space.pgdir, sz := space.sz } with
    mem := space.mem }

/-- The machine's `growproc` is that of the address space, with free lists that nobody else
changes. -/
theorem growproc_space {s : Machine} {p : Slot} (n : Int) (hd : (s.procs p).pgdir = some d) :
    ∃ free, growproc s p n = (Space.growproc free ⟨(s.procs p).sz, d, s.mem⟩ n).map fun result =>
      (s.put p result.1, if result.2 then .done else .failed) := by
  obtain ⟨free, hfree⟩ := exists_allocuvm s.mem d (s.procs p).sz (grownSize (s.procs p).sz n)
  have hgrown := hfree free fun _ _ _ => rfl
  refine ⟨free, ?_⟩
  simp only [growproc, hd, resize, Space.growproc, hgrown]
  rcases Int.lt_trichotomy n 0 with hn | rfl | hn
  · have hpos : ¬ 0 < n := by omega
    simp only [if_neg hpos, if_pos hn]
    cases deallocuvm s.mem d (s.procs p).sz (grownSize (s.procs p).sz n) with
    | none => rfl
    | some result =>
      by_cases hsz : result.1 = 0
      · simp [hsz, hn.ne, Machine.put, Machine.setDir]
      · simp [hsz, Machine.put]
  · simp [Machine.put]
  · simp only [if_pos hn]
    cases allocuvm s.mem d (s.procs p).sz (grownSize (s.procs p).sz n) with
    | none => rfl
    | some result =>
      by_cases hsz : result.1 = 0
      · simp [hsz, hn.ne', Machine.put, Machine.setDir]
      · simp [hsz, Machine.put]

end

section

variable {free : Nat → FreeLists} {d0 d d' : PageDir} {m0 m m' : Mem} {lo v n : Nat} {ok : Bool}

theorem allocTurn_cases {lists : FreeLists} (h : allocTurn lists v d m = some (ok, d', m')) :
    (ok = false ∧ d' = d ∧ m'.frame = m.frame ∧ lists.page = []) ∨
    ∃ q, lists.page.head? = some q ∧ ok = true ∧
      m'.frame = update m.frame q zeroPage ∧
      ((∃ m1 m2, m1.freelist = lists.table ∧ Installed m1 d v q userFlags d' m2) ∨
        (d' = d ∧ d.pde (pdx v) = none ∧ lists.table = [])) := by
  unfold allocTurn at h
  split at h
  · rename_i m1 hfail
    cases h
    obtain ⟨hnil, rfl⟩ := kalloc_none hfail
    exact Or.inl ⟨rfl, rfl, rfl, hnil⟩
  · rename_i q m1 hq
    obtain ⟨rest, hfree, rfl⟩ := kalloc_some hq
    have hhead : lists.page.head? = some q := by
      have hlist : lists.page = q :: rest := hfree
      rw [hlist]
      rfl
    simp only [mappages_page] at h
    split at h
    · cases h
    · rename_i ok' d1 m2 hmap
      cases h
      refine Or.inr ⟨q, hhead, rfl, ?_⟩
      rcases mapPage_cases hmap with ⟨_, hinstall⟩ | ⟨_, rfl, htable, hfail⟩
      · exact ⟨hinstall.frame, Or.inl ⟨_, _, rfl, hinstall⟩⟩
      · obtain ⟨hnil, rfl⟩ := kalloc_none hfail
        exact ⟨rfl, Or.inr ⟨rfl, htable, hnil⟩⟩

/-- The address space during `allocuvm`, before page `v`. -/
structure Growing (d0 : PageDir) (m0 : Mem) (lo v : Nat) (d : PageDir) (m : Mem) : Prop where
  below : ∀ u, u < lo → d.present u = d0.present u
  above : ∀ u, v ≤ u → d.present u = none
  kept : ∀ u q, d0.maps u = some q → m.frame q = m0.frame q
  fresh : ∀ u q, lo ≤ u → d.maps u = some q → ∀ w, d0.maps w ≠ some q
  zero : ∀ u q, lo ≤ u → d.maps u = some q → m.frame q = zeroPage

theorem Growing.turn {lists : FreeLists} (h : Growing d0 m0 lo v d m) (hv : lo ≤ v)
    (hspare : ∀ q ∈ lists.page, ∀ u, d0.maps u ≠ some q)
    (hturn : allocTurn lists v d m = some (true, d', m')) : Growing d0 m0 lo (v + 1) d' m' := by
  rcases allocTurn_cases hturn with ⟨hfalse, _⟩ | ⟨q, hhead, _, hframe, hmapped⟩
  · cases hfalse
  have hq := List.mem_of_head? hhead
  -- the frame of a page is zeroed, the frames of the old pages are others
  have hkept : ∀ u r, d0.maps u = some r → m'.frame r = m0.frame r := by
    intro u r hr
    have hne : r ≠ q := by
      rintro rfl
      exact hspare r hq u hr
    rw [hframe, update_of_ne hne]
    exact h.kept u r hr
  have hzero : ∀ r, r = q ∨ m.frame r = zeroPage → m'.frame r = zeroPage := by
    intro r hr
    rw [hframe]
    by_cases hrq : r = q
    · rw [hrq, update_self]
    · rw [update_of_ne hrq]
      exact hr.resolve_left hrq
  rcases hmapped with ⟨m1, m2, _, hinstall⟩ | ⟨rfl, _⟩
  · have hnew : ∀ u r, lo ≤ u → d'.maps u = some r →
        r = q ∨ d.maps u = some r := by
      intro u r _ hr
      by_cases huv : u = v
      · obtain ⟨pte, hpte, rfl⟩ := maps_eq_some.mp hr
        rw [huv, hinstall.entry] at hpte
        cases hpte
        exact Or.inl rfl
      · rw [maps_congr (hinstall.others u huv)] at hr
        exact Or.inr hr
    refine ⟨fun u hu => ?_, fun u hu => ?_, hkept, fun u r hu hr => ?_, fun u r hu hr => ?_⟩
    · rw [hinstall.others u (by omega), h.below u hu]
    · rw [hinstall.others u (by omega), h.above u (by omega)]
    · rcases hnew u r hu hr with rfl | hold
      · exact hspare r hq
      · exact h.fresh u r hu hold
    · refine hzero r ?_
      rcases hnew u r hu hr with rfl | hold
      · exact Or.inl rfl
      · exact Or.inr (h.zero u r hu hold)
  · exact ⟨h.below, fun u hu => h.above u (by omega), hkept, h.fresh,
      fun u r hu hr => hzero r (Or.inr (h.zero u r hu hr))⟩

theorem Growing.turns (h : Growing d0 m0 lo v d m) (hv : lo ≤ v) (hspare : Spare free d0)
    (hturns : allocTurns free n v d m = some (ok, d', m')) : Growing d0 m0 lo (v + n) d' m' := by
  induction n generalizing v d m with
  | zero =>
    cases hturns
    exact h
  | succ n ih =>
    unfold allocTurns at hturns
    split at hturns
    · cases hturns
    · rename_i d1 m1 hturn
      cases hturns
      rcases allocTurn_cases hturn with ⟨_, rfl, hframe, _⟩ | ⟨_, _, htrue, _⟩
      · refine ⟨h.below, fun u hu => h.above u (by omega), fun u r hr => ?_, h.fresh,
          fun u r hu hr => ?_⟩
        · rw [hframe]
          exact h.kept u r hr
        · rw [hframe]
          exact h.zero u r hu hr
      · cases htrue
    · rename_i d1 m1 hturn
      have hlater := ih (h.turn hv (hspare v) hturn) (by omega) hturns
      rwa [Nat.add_right_comm, Nat.add_assoc] at hlater

theorem allocTurns_ok (hturns : allocTurns free n v d m = some (ok, d', m')) :
    ok = false ↔ ∃ u, v ≤ u ∧ u < v + n ∧ (free u).page = [] := by
  induction n generalizing v d m with
  | zero =>
    cases hturns
    exact ⟨nofun, fun ⟨u, hlo, hhi, _⟩ => absurd hhi (by omega)⟩
  | succ n ih =>
    unfold allocTurns at hturns
    split at hturns
    · cases hturns
    · rename_i d1 m1 hturn
      cases hturns
      rcases allocTurn_cases hturn with ⟨_, _, _, hnil⟩ | ⟨_, _, htrue, _⟩
      · exact ⟨fun _ => ⟨v, le_rfl, by omega, hnil⟩, fun _ => rfl⟩
      · cases htrue
    · rename_i d1 m1 hturn
      rcases allocTurn_cases hturn with ⟨hfalse, _⟩ | ⟨q, hhead, _⟩
      · cases hfalse
      · rw [ih hturns]
        constructor
        · rintro ⟨u, hlo, hhi, hnil⟩
          exact ⟨u, by omega, by omega, hnil⟩
        · rintro ⟨u, hlo, hhi, hnil⟩
          have hne : u ≠ v := by
            rintro rfl
            rw [hnil] at hhead
            cases hhead
          exact ⟨u, by omega, by omega, hnil⟩

theorem allocTurns_below (hturns : allocTurns free n v d m = some (ok, d', m')) {u : Nat}
    (hu : u < v) : d'.present u = d.present u := by
  induction n generalizing v d m with
  | zero =>
    cases hturns
    rfl
  | succ n ih =>
    unfold allocTurns at hturns
    split at hturns
    · cases hturns
    · rename_i d1 m1 hturn
      cases hturns
      rcases allocTurn_cases hturn with ⟨_, rfl, _⟩ | ⟨_, _, htrue, _⟩
      · rfl
      · cases htrue
    · rename_i d1 m1 hturn
      rw [ih hturns (by omega)]
      rcases allocTurn_cases hturn with ⟨hfalse, _⟩ | ⟨_, _, _, _, ⟨_, _, _, hinstall⟩ | ⟨rfl, _⟩⟩
      · cases hfalse
      · exact hinstall.others u (by omega)
      · rfl

/-- A new table serves the pages up to the next multiple of `NPTENTRIES` only. -/
theorem tablesFound_installed {m1 m2 : Mem} {q hi : Nat}
    (hinstall : Installed m1 d v q userFlags d' m2) :
    TablesFound free d' (v + 1) hi ↔ TablesFound free d (v + 1) hi := by
  have hpde : ∀ u, v + 1 ≤ u → u % nptentries = 0 → (d'.pde (pdx u) = none ↔
      d.pde (pdx u) = none) := by
    intro u hu hmod
    have hne : pdx u ≠ pdx v := by
      simp only [pdx, nptentries] at hmod ⊢
      omega
    have htables := hinstall.tables (pdx u)
    rw [decide_eq_false hne, Bool.or_false] at htables
    rw [← Option.not_isSome_iff_eq_none, ← Option.not_isSome_iff_eq_none, htables]
  constructor
  · exact fun h u hlo hhi hmod hnone => h u hlo hhi hmod ((hpde u hlo hmod).mpr hnone)
  · exact fun h u hlo hhi hmod hnone => h u hlo hhi hmod ((hpde u hlo hmod).mp hnone)

/-- The pages of a growth are all there exactly when the missing tables were found. -/
theorem allocTurns_present (hfirst : v % nptentries = 0 ∨ (d.pde (pdx v)).isSome = true)
    (hturns : allocTurns free n v d m = some (true, d', m')) :
    (∀ u, v ≤ u → u < v + n → (d'.present u).isSome = true) ↔ TablesFound free d v (v + n) := by
  induction n generalizing v d m with
  | zero =>
    exact ⟨fun _ u hlo hhi => absurd hhi (by omega), fun _ u hlo hhi => absurd hhi (by omega)⟩
  | succ n ih =>
    unfold allocTurns at hturns
    split at hturns
    · cases hturns
    · cases hturns
    · rename_i d1 m1 hturn
      have hsame := allocTurns_below hturns (Nat.lt_succ_self v)
      rcases allocTurn_cases hturn with
        ⟨hfalse, _⟩ | ⟨q, _, _, _, ⟨m2, m3, hlist, hinstall⟩ | ⟨rfl, hnone, hnil⟩⟩
      · cases hfalse
      · have hnext : (v + 1) % nptentries = 0 ∨ (d1.pde (pdx (v + 1))).isSome = true := by
          by_cases hmod : (v + 1) % nptentries = 0
          · exact Or.inl hmod
          · have hpdx : pdx (v + 1) = pdx v := by
              simp only [pdx, nptentries] at hmod ⊢
              omega
            rw [hpdx, hinstall.tables, decide_eq_true rfl, Bool.or_true]
            exact Or.inr rfl
        have hrest := (ih hnext hturns).trans (tablesFound_installed hinstall)
        rw [Nat.add_right_comm, Nat.add_assoc] at hrest
        constructor
        · intro hall u hlo hhi hmod hpde
          by_cases huv : u = v
          · subst huv
            rcases hinstall.free with ⟨hsome, _⟩ | ⟨_, hlen⟩
            · rw [hpde] at hsome
              cases hsome
            · rw [← hlist]
              rintro hempty
              rw [hempty] at hlen
              simp at hlen
          · exact hrest.mp (fun w hwlo => hall w (by omega)) u (by omega) hhi hmod hpde
        · intro hfound u hlo hhi
          by_cases huv : u = v
          · rw [huv, hsame, hinstall.entry]
            rfl
          · exact hrest.mpr (fun w hwlo => hfound w (by omega)) u (by omega) hhi
      · -- the page stays without an entry
        have hmod : v % nptentries = 0 := hfirst.resolve_right (by simp [hnone])
        have habsent : d1.present v = none := by
          simp [PageDir.present, PageDir.lookup, hnone]
        constructor
        · intro hall
          have hv := hall v le_rfl (by omega)
          rw [hsame, habsent] at hv
          cases hv
        · exact fun hfound => absurd hnil (hfound v le_rfl (by omega) hmod hnone)

end

section

variable {d0 d d' : PageDir} {m0 m m' : Mem} {v last n : Nat} {s s' : Space}

theorem Unmaps.frame (h : Unmaps kfree last v d m d' m') {q : Nat}
    (hq : ∀ u, v ≤ u → u < last → d.maps u ≠ some q) : m'.frame q = m.frame q := by
  induction h with
  | done => rfl
  | skip _ _ _ ih | absent _ _ _ _ ih => exact ih fun u hlo => hq u (by omega)
  | @page w d m m1 d' m' pte hlt hentry hrelease hrest ih =>
    have hne : q ≠ pte.ppn := by
      rintro rfl
      exact hq w le_rfl hlt (maps_eq_some.mpr ⟨pte, hentry, rfl⟩)
    have hlater : ∀ u, w + 1 ≤ u → u < last → (d.setPte w Pte.zero).maps u ≠ some q := by
      intro u hlo hhi
      rw [maps_congr (present_setPte_of_ne (by omega))]
      exact hq u (by omega) hhi
    rw [ih hlater, kfree_some hrelease]
    exact update_of_ne hne _ _

theorem table_of_below (h : ∀ u, u < n → (d.present u).isSome = true) :
    n % nptentries = 0 ∨ (d.pde (pdx n)).isSome = true := by
  by_cases hmod : n % nptentries = 0
  · exact Or.inl hmod
  · have hpos : 0 < n := by
      rw [Nat.pos_iff_ne_zero]
      rintro rfl
      exact hmod (Nat.zero_mod _)
    obtain ⟨pte, hpte⟩ := Option.isSome_iff_exists.mp (h (n - 1) (by omega))
    obtain ⟨table, htable, _⟩ := Option.map_eq_some_iff.mp (present_eq_some.mp hpte).1
    have hsame : pdx n = pdx (n - 1) := by
      simp only [pdx, nptentries] at hmod ⊢
      omega
    rw [hsame, htable]
    exact Or.inr rfl

theorem Unmaps.cut (h : Unmaps kfree last n d m d' m')
    (hbelow : ∀ u, u < n → (d.present u).isSome = true)
    (habove : ∀ u, last ≤ u → d.present u = none) :
    (∀ u, u < n → d'.present u = d.present u) ∧ ∀ u, n ≤ u → d'.present u = none := by
  refine ⟨fun u hu => h.outside (Or.inl hu), fun u hu => ?_⟩
  by_cases hlast : last ≤ u
  · rw [h.outside (Or.inr hlast), habove u hlast]
  · exact h.empty (table_of_below hbelow) hu (by omega)

theorem Growing.undone {sz newsz sz' : Nat} (h : Growing d0 m0 (pages sz) (pages newsz) d m)
    (hd0 : d0.Dense (pages sz)) (hle : sz ≤ newsz)
    (hdealloc : deallocuvm m d newsz sz = some (sz', d', m')) :
    (∀ u, d'.present u = d0.present u) ∧ ∀ u q, d0.maps u = some q → m'.frame q = m0.frame q := by
  have hnone : ∀ u, pages sz ≤ u → d0.present u = none := by
    intro u hu
    have hnot := mt (hd0 u).mp (by omega)
    simpa using hnot
  rcases unmapRange_cases hdealloc with ⟨hge, rfl, rfl⟩ | ⟨_, hunmaps⟩
  · have heq : newsz = sz := Nat.le_antisymm hge hle
    subst heq
    refine ⟨fun u => ?_, h.kept⟩
    by_cases hu : u < pages newsz
    · exact h.below u hu
    · rw [h.above u (by omega), hnone u (by omega)]
  · have hbelow : ∀ u, u < pages sz → (d.present u).isSome = true := by
      intro u hu
      rw [h.below u hu]
      exact (hd0 u).mpr hu
    obtain ⟨hlow, hhigh⟩ := hunmaps.cut hbelow h.above
    refine ⟨fun u => ?_, fun u q hq => ?_⟩
    · by_cases hu : u < pages sz
      · rw [hlow u hu, h.below u hu]
      · rw [hhigh u (by omega), hnone u (by omega)]
    · rw [hunmaps.frame fun w hlo _ hw => h.fresh w q hlo hw u hq]
      exact h.kept u q hq

end

/-- What `growproc(n)` does when it returns 0. -/
structure Resized (s : Space) (n : Int) (s' : Space) : Prop where
  size : (s'.sz : Int) = s.sz + n
  dense : s'.pgdir.Dense (pages s'.sz)
  zero : ∀ va, pages s.sz * pgsize ≤ va → va < pages s'.sz * pgsize → s'.byte va = some 0
  kept : ∀ va, va < s.sz → va < s'.sz → s'.byte va = s.byte va

/-- What it does when it returns -1. -/
structure Unchanged (s s' : Space) : Prop where
  size : s'.sz = s.sz
  mapped : ∀ v, (s'.pgdir.present v).isSome = (s.pgdir.present v).isSome
  kept : ∀ va, s'.byte va = s.byte va

section

variable {free : Nat → FreeLists} {s s' : Space} {n : Int} {d : PageDir} {m : Mem} {sz newsz : Nat}

theorem byte_congr {va : Nat} (hpresent : s'.pgdir.present (va / pgsize) = s.pgdir.present
    (va / pgsize)) (hframe : ∀ q, s.pgdir.maps (va / pgsize) = some q → s'.mem.frame q = s.mem.frame
    q) : s'.byte va = s.byte va := by
  unfold Space.byte
  rw [hpresent]
  cases hpte : s.pgdir.present (va / pgsize) with
  | none => rfl
  | some pte => rw [Option.map_some, Option.map_some, hframe _ (maps_eq_some.mpr ⟨pte, hpte, rfl⟩)]

theorem page_of_lt {va : Nat} (h : va < sz) : va / pgsize < pages sz := by
  rw [pages_eq]
  simp only [pgsize]
  omega

theorem growing_start (hs : s.Whole) :
    Growing s.pgdir s.mem (pages s.sz) (pages s.sz) s.pgdir s.mem := by
  have hnone : ∀ u, pages s.sz ≤ u → s.pgdir.present u = none := by
    intro u hu
    have hnot := mt (hs.dense u).mp (by omega)
    simpa using hnot
  have hmaps : ∀ u q, pages s.sz ≤ u → s.pgdir.maps u ≠ some q := by
    intro u q hu hq
    obtain ⟨pte, hpte, _⟩ := maps_eq_some.mp hq
    rw [hnone u hu] at hpte
    cases hpte
  exact ⟨fun _ _ => rfl, hnone, fun _ _ _ => rfl, fun u q hu hq => absurd hq (hmaps u q hu),
    fun u q hu hq => absurd hq (hmaps u q hu)⟩

theorem Growing.resized (h : Growing s.pgdir s.mem (pages s.sz) (pages newsz) d m) (hs : s.Whole)
    (hle : s.sz ≤ newsz)
    (hpresent : ∀ u, pages s.sz ≤ u → u < pages newsz → (d.present u).isSome = true) :
    Resized s (newsz - s.sz) ⟨newsz, d, m⟩ := by
  have hpages := pages_mono hle
  refine ⟨by simp, fun v => ?_, fun va hlo hhi => ?_, fun va hva _ => ?_⟩
  · show (d.present v).isSome = true ↔ v < pages newsz
    by_cases hold : v < pages s.sz
    · have hv := (hs.dense v).mpr hold
      rw [h.below v hold]
      exact ⟨fun _ => by omega, fun _ => hv⟩
    · by_cases hnew : v < pages newsz
      · exact ⟨fun _ => hnew, fun _ => hpresent v (by omega) hnew⟩
      · rw [h.above v (by omega)]
        exact ⟨fun hnone => (by cases hnone), fun hlt => absurd hlt hnew⟩
  · have hhi' : va < pages newsz * pgsize := hhi
    have hpage : pages s.sz ≤ va / pgsize ∧ va / pgsize < pages newsz := by
      simp only [pgsize] at hlo hhi' ⊢
      omega
    obtain ⟨pte, hpte⟩ := Option.isSome_iff_exists.mp (hpresent _ hpage.1 hpage.2)
    have hzero := h.zero _ _ hpage.1 (maps_eq_some.mpr ⟨pte, hpte, rfl⟩)
    simp only [Space.byte, hpte, Option.map_some, hzero, zeroPage]
  · exact byte_congr (h.below _ (page_of_lt hva)) fun q hq => h.kept _ q hq

theorem allocuvm_exact (hs : s.Whole) (hspare : Spare free s.pgdir) (hle : s.sz ≤ newsz)
    (h : s.allocuvm free newsz = some (sz, d, m)) :
    (sz = 0 ∧ Unchanged s ⟨s.sz, d, m⟩ ∧ (kernbase ≤ newsz ∨
      ∃ v, pages s.sz ≤ v ∧ v < pages newsz ∧ (free v).page = [])) ∨
    (sz = newsz ∧ newsz < kernbase ∧
      (¬ ∃ v, pages s.sz ≤ v ∧ v < pages newsz ∧ (free v).page = []) ∧
      (Resized s (newsz - s.sz) ⟨newsz, d, m⟩ ↔
        TablesFound free s.pgdir (pages s.sz) (pages newsz))) := by
  have hsum : pages s.sz + (pages newsz - pages s.sz) = pages newsz := by
    have hpages := pages_mono hle
    omega
  unfold Space.allocuvm at h
  split at h
  · rename_i hbig
    cases h
    exact Or.inl ⟨rfl, ⟨rfl, fun _ => rfl, fun _ => rfl⟩, Or.inl hbig⟩
  · rw [if_neg (by omega)] at h
    split at h
    · cases h
    · rename_i hsmall _ d1 m1 hturns
      have hgrowing := (growing_start hs).turns le_rfl hspare hturns
      have hok := allocTurns_ok hturns
      have hfirst := table_of_below fun u hu => (hs.dense u).mpr hu
      have hpresent := allocTurns_present hfirst hturns
      rw [hsum] at hgrowing hok hpresent
      cases h
      refine Or.inr ⟨rfl, by omega, mt hok.mpr (by simp), fun hresized => ?_, fun htables => ?_⟩
      · exact hpresent.mp fun u _ hu => (hresized.dense u).mpr hu
      · exact hgrowing.resized hs hle (hpresent.mpr htables)
    · rename_i d1 m1 hturns
      have hgrowing := (growing_start hs).turns le_rfl hspare hturns
      have hok := allocTurns_ok hturns
      rw [hsum] at hgrowing hok
      split at h
      · cases h
      · rename_i sz' d2 m2 hdealloc
        cases h
        obtain ⟨hpresent, hkept⟩ := hgrowing.undone hs.dense hle hdealloc
        refine Or.inl ⟨rfl, ⟨rfl, fun v => by rw [hpresent v], fun va => ?_⟩, Or.inr (hok.mp rfl)⟩
        exact byte_congr (hpresent _) fun q hq => hkept _ q hq

theorem deallocuvm_exact (hs : s.Whole) (hlt : newsz < s.sz)
    (h : deallocuvm s.mem s.pgdir s.sz newsz = some (sz, d, m)) :
    sz = newsz ∧ Resized s (newsz - s.sz) ⟨newsz, d, m⟩ := by
  have hpages := pages_mono (Nat.le_of_lt hlt)
  have hsz : sz = newsz := by
    unfold deallocuvm unmapRange at h
    rw [if_neg (by omega)] at h
    obtain ⟨_, _, hresult⟩ := Option.map_eq_some_iff.mp h
    cases hresult
    rfl
  rcases unmapRange_cases h with ⟨hge, _⟩ | ⟨_, hunmaps⟩
  · omega
  have hbelow : ∀ u, u < pages newsz → (s.pgdir.present u).isSome = true := by
    intro u hu
    exact (hs.dense u).mpr (by omega)
  obtain ⟨hlow, hhigh⟩ := hunmaps.cut hbelow (growing_start hs).above
  refine ⟨hsz, by simp, fun v => ?_, fun va hlo hhi => ?_, fun va _ hva => ?_⟩
  · show (d.present v).isSome = true ↔ v < pages newsz
    by_cases hv : v < pages newsz
    · rw [hlow v hv]
      exact ⟨fun _ => hv, fun _ => hbelow v hv⟩
    · rw [hhigh v (by omega)]
      exact ⟨fun hnone => (by cases hnone), fun hlt => absurd hlt hv⟩
  · have hhi' : va < pages newsz * pgsize := hhi
    simp only [pgsize] at hlo hhi'
    omega
  · have hpage : va / pgsize < pages newsz := page_of_lt hva
    refine byte_congr (hlow _ hpage) fun q hq => hunmaps.frame fun u hlo _ hu => ?_
    -- the frame of a page that stays is not that of a page that goes
    have hsame := hs.once u (va / pgsize) q hu hq
    omega

end

/-- `growproc` is exact and atomic under `GrowsExactly`, whatever the calls of `kalloc`
return, and only then. -/
theorem growproc_exact_and_atomic {free : Nat → FreeLists} {s s' : Space} {n : Int} {ok : Bool}
    (hs : s.Whole) (hspare : Spare free s.pgdir) (hint : -0x80000000 ≤ n ∧ n < 0x80000000)
    (h : s.growproc free n = some (s', ok)) :
    ((ok = true → Resized s n s') ∧ (ok = false → Unchanged s s')) ↔ GrowsExactly free s n := by
  have hsize := hs.size
  simp only [kernbase] at hsize
  unfold Space.growproc at h
  unfold GrowsExactly
  split at h
  · rename_i hpos
    have hgrown : (grownSize s.sz n : Int) = s.sz + n := by
      simp only [grownSize, wordSize]
      omega
    rw [if_pos hpos]
    split at h
    · cases h
    · rename_i sz d m halloc
      rcases allocuvm_exact hs hspare (by omega) halloc with
        ⟨rfl, hsame, hfail⟩ | ⟨rfl, hsmall, hpages, hresized⟩
      · rw [if_pos rfl] at h
        cases h
        exact ⟨fun _ => hfail.imp_right Or.inl, fun _ => ⟨nofun, fun _ => hsame⟩⟩
      · rw [if_neg (by omega)] at h
        cases h
        rw [hgrown, add_sub_cancel_left] at hresized
        refine ⟨fun hexact => Or.inr (Or.inr (hresized.mp (hexact.1 rfl))), fun hcond => ?_⟩
        have htables := (hcond.resolve_left (by omega)).resolve_left hpages
        exact ⟨fun _ => hresized.mpr htables, nofun⟩
  · rename_i hpos
    rw [if_neg hpos]
    split at h
    · rename_i hneg
      split at h
      · cases h
      · rename_i sz d m hdealloc
        by_cases hleft : 0 < s.sz + n
        · have hgrown : (grownSize s.sz n : Int) = s.sz + n := by
            simp only [grownSize, wordSize]
            omega
          obtain ⟨rfl, hresized⟩ := deallocuvm_exact hs (by omega) hdealloc
          rw [if_neg (by omega)] at h
          cases h
          rw [hgrown, add_sub_cancel_left] at hresized
          exact ⟨fun _ _ => Or.inr hleft, fun _ => ⟨fun _ => hresized, nofun⟩⟩
        · by_cases hall : s.sz + n = 0
          · -- the whole memory is gone, and the new size 0 is taken for the failure
            have hgrown : grownSize s.sz n = 0 := by
              simp only [grownSize, wordSize]
              omega
            rw [hgrown] at hdealloc
            obtain ⟨rfl, hresized⟩ := deallocuvm_exact hs (by omega) hdealloc
            rw [if_pos rfl] at h
            cases h
            have hmapped := (hs.dense 0).mpr (page_of_lt (show 0 < _ by omega))
            refine ⟨fun hexact => ?_, fun hcond => ?_⟩
            · have hsame := (hexact.2 rfl).mapped 0
              have hnone : ¬0 < pages 0 := by decide
              exact absurd ((hresized.dense 0).mp (hsame.trans hmapped)) hnone
            · have hcond := hcond hneg
              omega
          · -- the unsigned sum is not below the size and nothing happens
            obtain ⟨rfl, rfl, rfl⟩ : sz = s.sz ∧ d = s.pgdir ∧ m = s.mem := by
              have hle : s.sz ≤ grownSize s.sz n := by
                simp only [grownSize, wordSize]
                omega
              simp only [deallocuvm, unmapRange, if_pos hle] at hdealloc
              cases hdealloc
              exact ⟨rfl, rfl, rfl⟩
            by_cases hempty : s.sz = 0
            · rw [if_pos hempty] at h
              cases h
              exact ⟨fun _ _ => Or.inl hempty,
                fun _ => ⟨nofun, fun _ => ⟨rfl, fun _ => rfl, fun _ => rfl⟩⟩⟩
            · rw [if_neg hempty] at h
              cases h
              refine ⟨fun hexact => ?_, fun hcond => ?_⟩
              · have hsz : (s.sz : Int) = s.sz + n := (hexact.1 rfl).size
                omega
              · have hcond := hcond hneg
                omega
    · obtain rfl : n = 0 := by omega
      cases h
      refine ⟨fun _ hneg => absurd hneg (by decide),
        fun _ => ⟨fun _ => ⟨by simp, hs.dense, fun va hlo hhi => ?_, fun _ _ _ => rfl⟩, nofun⟩⟩
      omega

def onePage : Space :=
  let table : PageTable := ⟨2001, fun j => if j = 0 then ⟨2010, true, userFlags⟩ else Pte.zero⟩
  ⟨pgsize, ⟨2000, fun i => if i = 0 then some table else none, []⟩,
    ⟨1024, [], fun _ => 1, fun _ => zeroPage, false⟩⟩

def noPage : Space :=
  ⟨0, ⟨2000, fun _ => none, []⟩, ⟨1024, [], fun _ => 1, fun _ => zeroPage, false⟩⟩

/-- Every page of the process gets a page, the tables come from another list. -/
def ample (v : Nat) : FreeLists := ⟨[3000 + v], [4000 + v]⟩

theorem onePage_present (v : Nat) :
    onePage.pgdir.present v = if v = 0 then some ⟨2010, true, userFlags⟩ else none := by
  by_cases hv : v = 0
  · subst hv
    rfl
  · rw [if_neg hv]
    by_cases htable : v / nptentries = 0
    · have hslot : v % nptentries ≠ 0 := by
        simp only [nptentries] at htable ⊢
        omega
      simp [PageDir.present, PageDir.lookup, onePage, pdx, ptx, htable, hslot, Pte.zero]
    · simp [PageDir.present, PageDir.lookup, onePage, pdx, htable]

theorem onePage_maps {v q : Nat} (h : onePage.pgdir.maps v = some q) : v = 0 ∧ q = 2010 := by
  obtain ⟨pte, hpte, rfl⟩ := maps_eq_some.mp h
  rw [onePage_present] at hpte
  obtain ⟨hv, hsome⟩ := Option.ite_none_right_eq_some.mp hpte
  cases hsome
  exact ⟨hv, rfl⟩

theorem onePage_whole : onePage.Whole where
  size := by decide
  dense := by
    intro v
    have hone : pages onePage.sz = 1 := by decide
    rw [onePage_present, hone]
    by_cases hv : v = 0 <;> simp [hv]
  once := fun u v q hu hv => (onePage_maps hu).1.trans (onePage_maps hv).1.symm

theorem growproc_exact_and_atomic_grown :
    ∃ s', onePage.growproc ample 5000 = some (s', true) ∧ s'.sz = 9096 ∧
      Resized onePage 5000 s' := by
  obtain ⟨s', hcall, hsz⟩ : ∃ s', onePage.growproc ample 5000 = some (s', true) ∧
      s'.sz = 9096 := by
    decide +kernel
  have hspare : Spare ample onePage.pgdir := by
    intro v q hq u hu
    have hlist := List.mem_singleton.mp hq
    have hframe := (onePage_maps hu).2
    omega
  have hgrows : GrowsExactly ample onePage 5000 := by
    refine Or.inr (Or.inr fun v _ _ _ _ => ?_)
    simp [ample]
  exact ⟨s', hcall, hsz,
    ((growproc_exact_and_atomic onePage_whole hspare (by decide) hcall).mpr hgrows).1 rfl⟩

/-- Giving back exactly the whole memory frees it and returns -1; taking away more
than there is returns 0 and changes nothing; and a page whose page table cannot be
allocated is missing after a success. -/
theorem growproc_returns_wrongly :
    (∃ s', onePage.growproc ample (-4096) = some (s', false) ∧ s'.pgdir.present 0 = none) ∧
    (∃ s', onePage.growproc ample (-5000) = some (s', true) ∧ s'.sz = 4096) ∧
    ∃ s', noPage.growproc (fun v => ⟨[3000 + v], []⟩) 4096 = some (s', true) ∧ s'.sz = 4096 ∧
      s'.pgdir.present 0 = none := by
  decide +kernel

end Xv6.Vm
