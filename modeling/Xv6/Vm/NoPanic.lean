import Xv6.Vm.Calm

/-! Calls that cannot panic: the pages in use lie in the range of the allocator,
and an address space has every page below its size and none above. -/
namespace Xv6.Vm
open Ledger

/-- The pages that `kfree` accepts, for a kernel image that ends below `kend`. -/
def InRange (kend q : Nat) : Prop :=
  kend ≤ q ∧ q < phystop / pgsize ∧ q ≠ 0

def PageDir.Dense (d : PageDir) (n : Nat) : Prop :=
  ∀ v, (d.present v).isSome = true ↔ v < n

section

variable {m m' : Mem} {d : PageDir} {kend : Nat}

theorem kfree_total {q : Nat} (hkend : m.kend = kend) (hq : InRange kend q) :
    ∃ m', kfree m q = some m' := by
  obtain ⟨hlow, hhigh, _⟩ := hq
  refine ⟨_, if_neg ?_⟩
  omega

theorem cowRelease_total {q : Nat} (hkend : m.kend = kend) (hq : InRange kend q) :
    ∃ m', cowRelease m q = some m' := by
  unfold cowRelease
  simp only
  split
  · exact kfree_total hkend hq
  · exact ⟨_, rfl⟩

theorem kfreeMany_total {items : List Nat} (hkend : m.kend = kend)
    (h : ∀ q ∈ items, InRange kend q) : ∃ m', kfreeMany items m = some m' := by
  induction items generalizing m with
  | nil => exact ⟨m, rfl⟩
  | cons q rest ih =>
    obtain ⟨m1, hm1⟩ := kfree_total hkend (h q List.mem_cons_self)
    obtain ⟨m2, hm2⟩ := ih ((gave_kfree hm1).kend.trans hkend)
      (fun r hr => h r (List.mem_cons_of_mem q hr))
    exact ⟨m2, by simp [kfreeMany, hm1, hm2]⟩

/-- A release function that does not fail on pages of the allocator. -/
structure Releases (release : Mem → Nat → Option Mem) (kend : Nat) : Prop where
  total : ∀ {m q}, m.kend = kend → InRange kend q → ∃ m', release m q = some m'
  gave : ∀ {m q m'}, release m q = some m' → Mem.Gave m m'

theorem releases_kfree (kend : Nat) : Releases kfree kend :=
  ⟨fun hkend hq => kfree_total hkend hq, gave_kfree⟩

theorem releases_cowRelease (kend : Nat) : Releases cowRelease kend :=
  ⟨fun hkend hq => cowRelease_total hkend hq, gave_cowRelease⟩

variable {release : Mem → Nat → Option Mem}

theorem unmapLoop_total (hrelease : Releases release kend) {fuel v last : Nat}
    (hkend : m.kend = kend) (hd : ∀ u pte, d.present u = some pte → InRange kend pte.ppn) :
    ∃ result, unmapLoop release fuel v last d m = some result := by
  induction fuel generalizing v d m with
  | zero => exact ⟨_, rfl⟩
  | succ fuel ih =>
    unfold unmapLoop
    split
    · exact ⟨_, rfl⟩
    · split
      · exact ih hkend hd
      · rename_i pte hlookup
        split
        · rename_i hp
          have hrange := hd v pte (present_eq_some.mpr ⟨hlookup, hp⟩)
          rw [if_neg hrange.2.2]
          obtain ⟨m1, hm1⟩ := hrelease.total hkend hrange
          rw [hm1]
          refine ih ((hrelease.gave hm1).kend.trans hkend) ?_
          intro u pte' hu
          by_cases huv : u = v
          · rw [huv, present_setPte_zero] at hu
            cases hu
          · rw [present_setPte_of_ne huv] at hu
            exact hd u pte' hu
        · exact ih hkend hd

theorem unmapRange_total (hrelease : Releases release kend) (oldsz newsz : Nat)
    (hkend : m.kend = kend) (hd : ∀ u pte, d.present u = some pte → InRange kend pte.ppn) :
    ∃ result, unmapRange release m d oldsz newsz = some result := by
  unfold unmapRange
  split
  · exact ⟨_, rfl⟩
  · obtain ⟨result, hresult⟩ := unmapLoop_total hrelease hkend hd
    rw [hresult]
    exact ⟨_, rfl⟩

/-- The pages of a directory, mapped or its own, are in range. -/
structure PageDir.Ranged (d : PageDir) (kend : Nat) : Prop where
  pages : ∀ u pte, d.present u = some pte → InRange kend pte.ppn
  own : ∀ q, 0 < d.own q → InRange kend q

theorem free_total (hrelease : Releases release kend) (hkend : m.kend = kend)
    (hd : d.Ranged kend) :
    ∃ sz d' m' m'', unmapRange release m d kernbase 0 = some (sz, d', m') ∧
      kfreeMany (d'.tables ++ [d'.page]) m' = some m'' := by
  obtain ⟨⟨sz, d', m'⟩, hresult⟩ :=
    unmapRange_total hrelease kernbase 0 hkend hd.pages
  rcases unmapRange_cases hresult with ⟨hle, _⟩ | ⟨_, hloop⟩
  · simp at hle
  · have hkend' := (hloop.gave hrelease.gave).kend.trans hkend
    have htables : ∀ q ∈ d'.tables ++ [d'.page], InRange kend q := by
      intro q hq
      refine hd.own q ?_
      rw [← hloop.own, ← listed_tables]
      exact List.count_pos_iff.mpr hq
    obtain ⟨m'', hm''⟩ := kfreeMany_total hkend' htables
    exact ⟨sz, d', m', m'', hresult, hm''⟩

theorem freevm_total (hkend : m.kend = kend) (hd : d.Ranged kend) :
    ∃ m', freevm m d = some m' := by
  obtain ⟨sz, d', m', m'', hdealloc, hfree⟩ := free_total (releases_kfree kend) hkend hd
  refine ⟨m'', ?_⟩
  unfold freevm deallocuvm
  rw [hdealloc]
  exact hfree

theorem cowFreevm_total (hkend : m.kend = kend) (hd : d.Ranged kend) :
    ∃ m', cowFreevm m d = some m' := by
  obtain ⟨sz, d', m', m'', hdealloc, hfree⟩ := free_total (releases_cowRelease kend) hkend hd
  refine ⟨m'', ?_⟩
  unfold cowFreevm cowDeallocuvm
  rw [hdealloc]
  exact hfree

end

section

variable {read : ℤ → ℤ} {m m' : Mem} {d src : PageDir} {kend : Nat} {K U : Nat → ℕ}

theorem ranged_of_books {S : Nat → ℕ} (hwf : d.Wf)
    (hbooks : Books read (InRange kend) m (K + d.own) S) (hrefs : ∀ q, d.refs q ≤ S q) :
    d.Ranged kend where
  pages := by
    intro u pte hpresent
    have hpos := refs_pos.mpr ⟨u, wf_present hwf hpresent, maps_eq_some.mpr ⟨pte, hpresent, rfl⟩⟩
    have hle := hrefs pte.ppn
    exact hbooks.range pte.ppn (by omega)
  own := by
    intro q hq
    refine hbooks.range q ?_
    rw [Pi.add_apply]
    omega

theorem mapPage_total {v : Nat} (q : Nat) (perm : Flags) (h : d.present v = none) :
    ∃ result, mapPage m d v q perm = some result := by
  unfold mapPage
  split
  · exact ⟨_, rfl⟩
  · rename_i d1 m1 hwalk
    have habsent : ∀ {d1 : PageDir}, d1.present v = none → (d1.pde (pdx v)).isSome = true →
        ∃ pte, d1.lookup v = some pte ∧ pte.p = false := by
      intro d1 hnone htable
      obtain ⟨table, htable⟩ := Option.isSome_iff_exists.mp htable
      have hlookup : d1.lookup v = some (table.pte (ptx v)) := by simp [PageDir.lookup, htable]
      refine ⟨_, hlookup, ?_⟩
      simpa [PageDir.present, hlookup, Option.filter] using hnone
    have hfound : ∃ pte, d1.lookup v = some pte ∧ pte.p = false := by
      rcases walkpgdir_cases hwalk with ⟨_, rfl, _, htable⟩ | ⟨hok, _⟩ | ⟨x, _, htable, _, rfl⟩
      · exact habsent h htable
      · cases hok
      · refine habsent ?_ (by simp [PageDir.addTable])
        rw [present_addTable htable, h]
    obtain ⟨pte, hlookup, hp⟩ := hfound
    rw [hlookup]
    simp [hp]

theorem allocLoop_total {n v : Nat} (h : ∀ u, v ≤ u → d.present u = none) :
    ∃ result, allocLoop n v d m = some result := by
  induction n generalizing v d m with
  | zero => exact ⟨_, rfl⟩
  | succ n ih =>
    unfold allocLoop
    split
    · exact ⟨_, rfl⟩
    · rename_i q m1 hq
      rw [mappages_page]
      obtain ⟨⟨ok, d1, m2⟩, hmap⟩ := mapPage_total q userFlags (h v le_rfl)
      rw [hmap]
      refine ih fun u hu => ?_
      rcases mapPage_cases hmap with ⟨_, hinstall⟩ | ⟨_, rfl, _⟩
      · rw [hinstall.others u (by omega)]
        exact h u (by omega)
      · exact h u (by omega)

theorem copyLoop_total {n v : Nat} (hsrc : ∀ u, u < v + n → (src.present u).isSome = true)
    (h : ∀ u, v ≤ u → d.present u = none) : ∃ result, copyLoop src n v d m = some result := by
  induction n generalizing v d m with
  | zero => exact ⟨_, rfl⟩
  | succ n ih =>
    obtain ⟨pte, hpte⟩ := Option.isSome_iff_exists.mp (hsrc v (by omega))
    obtain ⟨hlookup, hp⟩ := present_eq_some.mp hpte
    unfold copyLoop
    simp only [hlookup, hp, if_true]
    split
    · exact ⟨_, rfl⟩
    · rename_i q m1 hq
      rw [mappages_page]
      obtain ⟨⟨ok, d1, m2⟩, hmap⟩ := mapPage_total q pte.flags (h v le_rfl)
      rw [hmap]
      rcases mapPage_cases hmap with ⟨rfl, hinstall⟩ | ⟨rfl, _⟩
      · refine ih (fun u hu => hsrc u (by omega)) fun u hu => ?_
        rw [hinstall.others u (by omega)]
        exact h u (by omega)
      · exact ⟨_, rfl⟩

variable [Reading read]

theorem copyuvm_total {sz : Nat} (hsz : pages sz ≤ upages) (hkend : m.kend = kend)
    (hbooks : Books read (InRange kend) m K U) (hsrc : src.Dense (pages sz)) :
    ∃ result, copyuvm m src sz = some result := by
  unfold copyuvm
  split
  · exact ⟨_, rfl⟩
  · rename_i d m1 hsetup
    have hfresh := fresh_setupkvm hsetup
    have hpages : ∀ u, u < 0 + pages sz → (src.present u).isSome = true :=
      fun u hu => (hsrc u).mpr (by omega)
    obtain ⟨⟨ok, d1, m2⟩, hloop⟩ :=
      copyLoop_total (m := m1) hpages fun u _ => hfresh.present u
    rw [hloop]
    cases ok with
    | true => exact ⟨_, rfl⟩
    | false =>
      have hfills := copyLoop_fills hloop
      have hbooks2 := hfills.books (by omega) (books_setupkvm hbooks hsetup)
      have hranged : d1.Ranged kend :=
        ranged_of_books (hfills.wf hfresh.wf (by omega)) hbooks2 fun q => Nat.le_add_left _ _
      obtain ⟨m3, hfree⟩ :=
        freevm_total (((took_setupkvm hsetup).trans hfills.took).kend.trans hkend) hranged
      exact ⟨(none, m3), by simp [hfree]⟩

theorem allocuvm_total {oldsz newsz : Nat} (hkend : m.kend = kend) (hwf : d.Wf)
    (hbooks : Books read (InRange kend) m (K + d.own) (U + d.refs)) (hd : d.Dense (pages oldsz)) :
    ∃ result, allocuvm m d oldsz newsz = some result := by
  unfold allocuvm
  split_ifs with hbig hless
  · exact ⟨_, rfl⟩
  · exact ⟨_, rfl⟩
  · have hmono := pages_mono (Nat.le_of_not_lt hless)
    have hupages := pages_le_upages (Nat.le_of_not_le hbig)
    obtain ⟨⟨ok, d1, m1⟩, hloop⟩ :=
      allocLoop_total (d := d) (m := m) (n := pages newsz - pages oldsz) (v := pages oldsz)
        fun u hu => by
          have hnot := mt (hd u).mp (by omega)
          simpa using hnot
    rw [hloop]
    cases ok with
    | true => exact ⟨_, rfl⟩
    | false =>
      have hfills := allocLoop_fills hloop
      have hranged : d1.Ranged kend :=
        ranged_of_books (hfills.wf hwf (by omega)) (hfills.books (by omega) hbooks)
          fun q => Nat.le_add_left _ _
      obtain ⟨result, hdealloc⟩ := unmapRange_total (releases_kfree kend) newsz oldsz
        (hfills.took.kend.trans hkend) hranged.pages
      simp only [deallocuvm, hdealloc]
      exact ⟨_, rfl⟩

theorem resize_total {sz : Nat} {n : Int} (hn : 0 ≤ n) (hkend : m.kend = kend) (hwf : d.Wf)
    (hbooks : Books read (InRange kend) m (K + d.own) (U + d.refs)) (hd : d.Dense (pages sz)) :
    ∃ result, resize m d sz n = some result := by
  unfold resize
  rw [if_neg (by omega : ¬ n < 0)]
  split
  · exact allocuvm_total hkend hwf hbooks hd
  · exact ⟨_, rfl⟩

end

/-- The address space of a process has the pages below its size, and a process
that runs or is to be reaped has a directory and a stack. -/
structure Proc.Full (proc : Proc) : Prop where
  dense : ∀ d, proc.pgdir = some d → d.Dense (pages proc.sz)
  live : proc.state = .runnable ∨ proc.state = .zombie →
    proc.pgdir.isSome = true ∧ proc.kstack.isSome = true

structure Ready (kend : Nat) (s : Machine) : Prop where
  inv : Inv effective (InRange kend) s
  kend : s.mem.kend = kend
  full : ∀ p, (s.procs p).Full

section

variable {kend : Nat} {s : Machine} {p : Slot}

theorem Ready.dir (h : Ready kend s) (hp : (s.procs p).state = .runnable) :
    ∃ d, (s.procs p).pgdir = some d :=
  Option.isSome_iff_exists.mp ((h.full p).live (Or.inl hp)).1

theorem Inv.kstack_ranged (h : Inv effective (InRange kend) s) {q : Nat}
    (hq : (s.procs p).kstack = some q) : InRange kend q := by
  have hle := own_le_owned s p q
  have hown : 0 < (s.procs p).own q := by
    simp [Proc.own, hq, listed_cons]
  exact h.books.range q (by omega)

theorem copyuvm_kend {m m' : Mem} {src : PageDir} {sz : Nat} {result : Option PageDir}
    (h : copyuvm m src sz = some (result, m')) : m'.kend = m.kend := by
  rcases copyuvm_cases h with ⟨_, hsetup⟩ | ⟨d0, m0, ok, d1, m1, hsetup, hfills, hend⟩
  · exact (took_setupkvm hsetup).kend
  · have htook := (took_setupkvm hsetup).trans hfills.took
    rcases hend with ⟨_, _, rfl⟩ | ⟨_, _, hfree⟩
    · exact htook.kend
    · exact (gave_freevm hfree).kend.trans htook.kend

theorem fork_total (h : Ready kend s) (hp : (s.procs p).state = .runnable) :
    ∃ result, fork s p = some result := by
  obtain ⟨src, hsrc⟩ := h.dir hp
  unfold fork forkWith
  split
  · exact ⟨_, rfl⟩
  · rename_i c s1 halloc
    obtain ⟨hne, hprocs⟩ := allocproc_ne h.inv hp halloc
    obtain ⟨_, _, _, _, q, hq, hself⟩ := allocproc_some h.inv halloc
    have h1 := inv_allocproc h.inv halloc
    have hkend1 : s1.mem.kend = kend := (took_kalloc hq).kend.trans h.kend
    obtain ⟨⟨result, m2⟩, hcopy⟩ := copyuvm_total (pages_le_upages (h.inv.size p)) hkend1 h1.books
      ((h.full p).dense src hsrc)
    have hstack : (s1.procs c).kstack = some q := by rw [hself]
    simp only [hprocs, hsrc, hcopy, Option.map_some, hstack]
    cases result with
    | some d => exact ⟨_, rfl⟩
    | none =>
      obtain ⟨m3, hfree⟩ :=
        kfree_total ((copyuvm_kend hcopy).trans hkend1) (h1.kstack_ranged hstack)
      simp only [hfree, Option.map_some]
      exact ⟨_, rfl⟩

theorem cowWait_total (h : Ready kend s) : ∃ result, cowWait s p = some result := by
  unfold cowWait waitWith
  split
  · split <;> exact ⟨_, rfl⟩
  · rename_i c hzombie
    have hstate : (s.procs c).state = .zombie := by
      have hfound := List.find?_some hzombie
      simp only [decide_eq_true_eq] at hfound
      exact hfound.2
    obtain ⟨hdir, hstack⟩ := (h.full c).live (Or.inr hstate)
    obtain ⟨d, hd⟩ := Option.isSome_iff_exists.mp hdir
    obtain ⟨q, hq⟩ := Option.isSome_iff_exists.mp hstack
    obtain ⟨m1, hm1⟩ := kfree_total h.kend (h.inv.kstack_ranged hq)
    have hranged : d.Ranged kend :=
      ranged_of_books (h.inv.wf c d hd) (h.inv.books_reaped hq hd hm1) fun _ => Nat.le_add_left _ _
    obtain ⟨m2, hm2⟩ := cowFreevm_total ((gave_kfree hm1).kend.trans h.kend) hranged
    simp only [hq, hd, hm1, Option.bind_some, hm2, Option.map_some]
    exact ⟨_, rfl⟩

theorem growproc_total {n : Int} (h : Ready kend s) (hp : (s.procs p).state = .runnable)
    (hn : 0 ≤ n) : ∃ result, growproc s p n = some result := by
  obtain ⟨d, hd⟩ := h.dir hp
  obtain ⟨⟨sz, d', m'⟩, hresize⟩ := resize_total hn h.kend (h.inv.wf p d hd) (h.inv.books_dir hd)
    ((h.full p).dense d hd)
  unfold growproc
  simp only [hd, hresize]
  split <;> exact ⟨_, rfl⟩

theorem exit_total (hp : p ≠ s.initproc) : ∃ s', exit s p = some s' :=
  ⟨_, if_neg hp⟩

theorem pgfault_total {va : Nat} (h : Ready kend s) (hp : (s.procs p).state = .runnable)
    (hinit : p ≠ s.initproc) : ∃ result, pgfault s p va = some result := by
  obtain ⟨d, hd⟩ := h.dir hp
  unfold pgfault
  simp only [hd]
  split
  · exact ⟨_, rfl⟩
  · rename_i d' m' _
    obtain ⟨s', hs'⟩ := exit_total (s := { s.setProc p { s.procs p with
      pgdir := some d', killed := true } with mem := m' }) hinit
    rw [hs']
    exact ⟨_, rfl⟩

end

end Xv6.Vm
