import Xv6.Vm.Invariant

/-! What the calls do while no `kalloc` fails: which slot a fork takes, what the
directories of parent and child contain, and which pages `sbrk` adds. -/
namespace Xv6.Vm
open Ledger

attribute [local simp] Machine.setProc

section

variable {read : ℤ → ℤ} {valid : Nat → Prop} {m m' : Mem} {src src' d : PageDir} {K U : Nat → ℕ}

theorem kallocMany_none_failed {n : Nat} (h : kallocMany n m = (none, m')) : m'.kfailed = true := by
  induction n generalizing m with
  | zero => cases h
  | succ n ih =>
    unfold kallocMany at h
    split at h
    · rename_i m1 hfail
      cases h
      exact (lost_kalloc hfail).failed
    · split at h
      · rename_i hrest
        cases h
        exact ih hrest
      · cases h

theorem setupkvm_none_failed (h : setupkvm m = (none, m')) : m'.kfailed = true := by
  rcases setupkvm_cases h with ⟨_, q, m1, _, hmany⟩ | ⟨_, hfail⟩ | ⟨q, m1, tables, _, _, hsome⟩
  · exact kallocMany_none_failed hmany
  · exact (lost_kalloc hfail).failed
  · cases hsome

/-- The child's pages are copies of the parent's first `n` pages. -/
structure Copied (m : Mem) (src d : PageDir) (n : Nat) (m' : Mem) : Prop where
  entry : ∀ v, v < n → ∃ pte q, src.present v = some pte ∧ q ∈ m.freelist ∧
    d.present v = some ⟨q, true, pte.flags⟩ ∧ m'.frame q = m.frame pte.ppn
  above : ∀ v, n ≤ v → d.present v = none
  refs : ∀ q, q ∉ m.freelist → d.refs q = 0
  single : ∀ {read valid K U} [Reading read], Books read valid m K U →
    Unshared (U + d.refs) d 0 upages

/-- Parent and child have the same entries, without `PTE_W`, for the parent's
first `n` pages. -/
structure Shared (src src' d : PageDir) (n : Nat) : Prop where
  entry : ∀ v, v < n → ∃ pte, src.present v = some pte ∧ src'.present v = some pte.share ∧
    d.present v = some pte.share
  above : ∀ v, n ≤ v → src'.present v = src.present v ∧ d.present v = none
  refs : ∀ q, (∀ v, v < n → src.maps v ≠ some q) → d.refs q = 0

theorem Copied.after_kalloc {m1 : Mem} {n x : Nat} (hx : kalloc m = (some x, m1))
    (h : Copied m1 src d n m') : Copied m src d n m' where
  entry := by
    intro v hv
    obtain ⟨pte, q, hpte, hq, hentry, hframe⟩ := h.entry v hv
    refine ⟨pte, q, hpte, (took_kalloc hx).free.subset hq, hentry, ?_⟩
    obtain ⟨rest, _, rfl⟩ := kalloc_some hx
    exact hframe
  above := h.above
  refs := fun q hq => h.refs q (fun hmem => hq ((took_kalloc hx).free.subset hmem))
  single := fun hbooks => h.single (books_kalloc hbooks hx)

theorem copyuvm_took {sz : Nat} {result : Option PageDir} (h : copyuvm m src sz = some (result, m'))
    (hfailed : m'.kfailed = false) : result ≠ none ∧ m.Took m' := by
  rcases copyuvm_cases h with ⟨_, hsetup⟩ | ⟨d0, m0, ok, d1, m1, hsetup, hfills, hend⟩
  · rw [setupkvm_none_failed hsetup] at hfailed
    cases hfailed
  · rcases hend with ⟨_, rfl, rfl⟩ | ⟨rfl, _, hfree⟩
    · exact ⟨by simp, (took_setupkvm hsetup).trans hfills.took⟩
    · rw [(gave_freevm hfree).failed, hfills.failed] at hfailed
      cases hfailed

theorem copyuvm_calm [Reading read] {sz : Nat} (hsz : pages sz ≤ upages)
    (hwf : src.Wf) (hsrc : ∀ q, src.refs q ≤ U q) (hbooks : Books read valid m K U)
    (h : copyuvm m src sz = some (some d, m')) (hfailed : m'.kfailed = false) :
    Copied m src d (pages sz) m' := by
  rcases copyuvm_cases h with ⟨hnone, _⟩ | ⟨d0, m0, ok, d1, m1, hsetup, hfills, hend⟩
  · cases hnone
  · rcases hend with ⟨_, hsome, rfl⟩ | ⟨_, hnone, _⟩
    · cases hsome
      have hfresh := fresh_setupkvm hsetup
      have hbooks0 := books_setupkvm hbooks hsetup
      have htook0 := took_setupkvm hsetup
      refine ⟨?_, ?_, ?_, ?_⟩
      · intro v hv
        obtain ⟨q, m2, page, perm, htook, hfree, hitem, hentry, hframe⟩ :=
          hfills.entry (by omega) hbooks0 hfailed (Nat.zero_le v) (by omega)
        obtain ⟨pte, hpte, hpair⟩ := Option.map_eq_some_iff.mp hitem
        cases hpair
        refine ⟨pte, q, hpte, htook0.free.subset hfree, hentry, ?_⟩
        have hpos : 0 < U pte.ppn := by
          have := refs_pos.mpr ⟨v, wf_present hwf hpte, maps_eq_some.mpr ⟨pte, hpte, rfl⟩⟩
          have := hsrc pte.ppn
          omega
        rw [hframe, (htook0.trans htook).frame _ (hbooks.not_free_of_shared hpos)]
      · intro v hv
        rw [hfills.outside (by omega), hfresh.present]
      · intro q hq
        rw [hfills.refs_old (by omega) (fun hmem => hq (htook0.free.subset hmem)), hfresh.refs]
        rfl
      · intro read' valid' K' U' _ hbooks'
        exact hfills.unshared (by omega) (books_setupkvm hbooks' hsetup)
          (unshared_fresh hfresh _ _ _)
    · cases hnone

theorem cowShareuvm_calm {sz : Nat} {result : Option PageDir} (hsz : pages sz ≤ upages)
    (h : cowShareuvm m src sz = some (result, src', m')) (hfailed : m'.kfailed = false) :
    ∃ d, result = some d ∧ m.Took m' ∧ Shared src src' d (pages sz) := by
  rcases cowShareuvm_cases h with ⟨_, _, hsetup⟩ | ⟨d0, m0, ok, d1, m1, hsetup, hshares, hend⟩
  · rw [setupkvm_none_failed hsetup] at hfailed
    cases hfailed
  · rcases hend with ⟨rfl, rfl, rfl⟩ | ⟨rfl, _, hfree⟩
    · have hfresh := fresh_setupkvm hsetup
      have htook := (took_setupkvm hsetup).trans hshares.took
      refine ⟨d1, rfl, htook, ?_, ?_, ?_⟩
      · intro v hv
        exact hshares.entry (Nat.zero_le v) (by omega)
      · intro v hv
        obtain ⟨hsrc, hd⟩ := hshares.outside (Or.inr (by omega : 0 + pages sz ≤ v))
        exact ⟨hsrc, hd.trans (hfresh.present v)⟩
      · intro q hq
        rw [hshares.refs_other (by omega) (fun u _ hu => hq u (by omega)), hfresh.refs]
        rfl
    · rw [(gave_freevm hfree).failed, hshares.failed] at hfailed
      cases hfailed

end

/-- A fork that has found the slot `c` for the child with directory `d`. -/
structure Born (s : Machine) (p c : Slot) (src src' d : PageDir) (s' : Machine) : Prop where
  slot : s.unusedSlot = some c
  ne : c ≠ p
  dir : (s.procs p).pgdir = some src
  parent : s'.procs p = { s.procs p with pgdir := some src' }
  child : ∃ q, s'.procs c = { s.procs c with
    state := .runnable, sz := (s.procs p).sz, pgdir := some d, parent := some p, kstack := some q }
  others : ∀ x, x ≠ p → x ≠ c → s'.procs x = s.procs x
  initproc : s'.initproc = s.initproc
  took : s.mem.Took s'.mem
  mapped : src'.refs = src.refs → ∀ q, s'.mapped q = s.mapped q + d.refs q

section

variable {read : ℤ → ℤ} {valid : Nat → Prop} {s s' : Machine} {p : Slot} {out : Outcome}
  {dup : Mem → PageDir → Nat → Option (Option PageDir × PageDir × Mem)}

section

variable (h : Inv read valid s) (hp : (s.procs p).state = .runnable)
include h hp

theorem forks_calm (hforks : Forks dup s p s' out) (hfailed : s'.mem.kfailed = false)
    (hdup : ∀ {m src src' result m'}, dup m src (s.procs p).sz = some (result, src', m') →
      m'.kfailed = false → result ≠ none ∧ m.Took m') :
    (s' = s ∧ out = .failed ∧ s.unusedSlot = none) ∨
    ∃ c s1 src src' d x, out = .child c ∧ Born s p c src src' d s' ∧
      kalloc s.mem = (some x, s1.mem) ∧ Inv read valid s1 ∧ s1.procs p = s.procs p ∧
      dup s1.mem src (s.procs p).sz = some (some d, src', s'.mem) := by
  cases hforks with
  | noSlot halloc =>
    rcases allocproc_cases halloc with ⟨_, hslot, rfl⟩ | ⟨c, m, _, _, hfail, rfl⟩ |
      ⟨c, q, m, hnone, _⟩
    · exact Or.inl ⟨rfl, rfl, hslot⟩
    · rw [show m.kfailed = true from (lost_kalloc hfail).failed] at hfailed
      cases hfailed
    · cases hnone
  | @undone c s1 src src' m1 q m2 halloc hsrc hcall hstack hfree =>
    obtain ⟨_, hprocs⟩ := allocproc_ne h hp halloc
    rw [hprocs] at hcall
    exact absurd rfl (hdup hcall ((gave_kfree hfree).failed.symm.trans hfailed)).1
  | @child c s1 src src' d m1 halloc hsrc hcall =>
    obtain ⟨hne, hprocs⟩ := allocproc_ne h hp halloc
    obtain ⟨hslot, hothers, hpgdir, hinit, q, hq, hself⟩ := allocproc_some h halloc
    have h1 := inv_allocproc h halloc
    rw [hprocs] at hcall hsrc
    have hmapped1 : s1.mapped = s.mapped := by
      refine mapped_congr fun x => ?_
      by_cases hx : x = c
      · rw [hx, hself]
      · rw [hothers x hx]
    have hc : (s1.setDir p src').procs c = s1.procs c := setDir_of_ne hne src'
    refine Or.inr ⟨c, s1, src, src', d, q, rfl, ⟨hslot, hne, hsrc, ?_, ⟨q, ?_⟩, ?_, hinit,
      (took_kalloc hq).trans (hdup hcall hfailed).2, ?_⟩, hq, h1, hprocs, hcall⟩
    · simp [Machine.setDir, hne.symm, hprocs]
    · simp [Machine.setDir, hne, hself, hprocs]
    · intro x hxp hxc
      simp [Machine.setDir, hxp, hxc, hothers x hxc]
    · intro hrefs r
      have hold : (s1.procs p).refs r = src.refs r := by rw [hprocs, Proc.refs_some hsrc]
      have hmark : (s1.setDir p src').mapped r = s.mapped r := by
        have hset := mapped_setProc s1 p { s1.procs p with pgdir := some src' } r
        rw [hold, Proc.refs_some rfl, hrefs, hmapped1] at hset
        exact Nat.add_right_cancel hset
      have hempty : ((s1.setDir p src').procs c).refs r = 0 := by
        rw [hc, Proc.new_refs hpgdir, Pi.zero_apply]
      have hchild := mapped_setProc (s1.setDir p src') c { (s1.setDir p src').procs c with
        pgdir := some d, sz := ((s1.setDir p src').procs p).sz, parent := some p,
        state := .runnable } r
      rw [hempty, Nat.add_zero, Proc.refs_some rfl, hmark] at hchild
      exact hchild

theorem fork_calm [Reading read]
    (hfork : fork s p = some (s', out)) (hfailed : s'.mem.kfailed = false) :
    (s' = s ∧ out = .failed ∧ s.unusedSlot = none) ∨
    ∃ c src d, out = .child c ∧ Born s p c src src d s' ∧
      Copied s.mem src d (pages (s.procs p).sz) s'.mem := by
  have hsz := pages_le_upages (h.size p)
  have hdup : ∀ {m src src' result m'},
      (copyuvm m src (s.procs p).sz).map (fun result => (result.1, src, result.2)) =
        some (result, src', m') → m'.kfailed = false → result ≠ none ∧ m.Took m' := by
    intro m src src' result m' hcall hm'
    obtain ⟨copy, hcopy, hresult⟩ := Option.map_eq_some_iff.mp hcall
    cases hresult
    exact copyuvm_took hcopy hm'
  rcases forks_calm h hp (forkWith_forks hfork) hfailed hdup with hnone |
    ⟨c, s1, src, src', d, x, hout, hborn, hx, h1, hprocs, hcall⟩
  · exact Or.inl hnone
  · obtain ⟨result, hcopy, hresult⟩ := Option.map_eq_some_iff.mp hcall
    simp only [Prod.mk.injEq] at hresult
    obtain ⟨hd, rfl, hmem⟩ := hresult
    have hcopy' : copyuvm s1.mem src (s.procs p).sz = some (some d, s'.mem) := by
      rw [hcopy, ← hd, ← hmem]
    have hsrc : ∀ q, src.refs q ≤ s1.mapped q := by
      rw [← Proc.refs_some hborn.dir, ← hprocs]
      exact refs_le_mapped s1 p
    have hcopied :=
      copyuvm_calm hsz (h.wf p src hborn.dir) hsrc h1.books hcopy' hfailed
    exact Or.inr ⟨c, src, d, hout, hborn, hcopied.after_kalloc hx⟩

theorem cowFork_calm
    (hfork : cowFork s p = some (s', out)) (hfailed : s'.mem.kfailed = false) :
    (s' = s ∧ out = .failed ∧ s.unusedSlot = none) ∨
    ∃ c src src' d, out = .child c ∧ Born s p c src src' d s' ∧ src'.refs = src.refs ∧
      Shared src src' d (pages (s.procs p).sz) := by
  have hsz := pages_le_upages (h.size p)
  have hdup : ∀ {m src src' result m'},
      cowShareuvm m src (s.procs p).sz = some (result, src', m') → m'.kfailed = false →
      result ≠ none ∧ m.Took m' := by
    intro m src src' result m' hcall hm'
    obtain ⟨d, rfl, htook, _⟩ := cowShareuvm_calm hsz hcall hm'
    exact ⟨by simp, htook⟩
  rcases forks_calm h hp (forkWith_forks hfork) hfailed hdup with hnone |
    ⟨c, s1, src, src', d, x, hout, hborn, _, _, _, hcall⟩
  · exact Or.inl hnone
  · obtain ⟨d', hd', _, hshared⟩ := cowShareuvm_calm hsz hcall hfailed
    cases hd'
    exact Or.inr ⟨c, src, src', d, hout, hborn, (cowShareuvm_src hcall).2, hshared⟩

end

end

def growSize (sz : Nat) (n : Int) : Nat :=
  if n = 0 ∨ kernbase ≤ grownSize sz n ∨ grownSize sz n < sz then sz else grownSize sz n

def growOut (sz : Nat) (n : Int) : Outcome :=
  if n ≠ 0 ∧ (kernbase ≤ grownSize sz n ∨ grownSize sz n = 0 ∧ sz = 0) then .failed else .done

/-- The pages from `lo` to `hi` are new, zero and writable. -/
structure Grown (m : Mem) (d : PageDir) (lo hi : Nat) (d' : PageDir) (m' : Mem) : Prop where
  outside : ∀ v, v < lo ∨ hi ≤ v → d'.present v = d.present v
  entry : ∀ v, lo ≤ v → v < hi → d.present v = none ∧ ∃ q, q ∈ m.freelist ∧
    d'.present v = some ⟨q, true, userFlags⟩ ∧ m'.frame q = zeroPage
  refs : ∀ q, q ∉ m.freelist → d'.refs q = d.refs q
  single : ∀ {read valid K U} [Reading read], Books read valid m (K + d.own) (U + d.refs) →
    Unshared (U + d'.refs) d' lo hi
  took : m.Took m'

section

variable {read : ℤ → ℤ} {valid : Nat → Prop} {s s' : Machine} {p : Slot} {out : Outcome} {n : Int}

theorem grown_refl (m : Mem) (d : PageDir) (v : Nat) : Grown m d v v d m where
  outside := fun _ _ => rfl
  entry := fun _ hlo hhi => absurd hlo (by omega)
  refs := fun _ _ => rfl
  single := fun _ _ hlo hhi => absurd hlo (by omega)
  took := Mem.Took.refl m

theorem Fills.grown [Reading read] {m m' : Mem} {d d' : PageDir} {k v : Nat} {ok : Bool}
    {K U : Nat → ℕ} (h : Fills (fun _ _ => some (zeroPage, userFlags)) k v d m ok d' m')
    (hv : v + k ≤ upages) (hbooks : Books read valid m (K + d.own) (U + d.refs))
    (hfailed : m'.kfailed = false) : Grown m d v (v + k) d' m' where
  outside := fun u hu => h.outside hu
  entry := by
    intro u hlo hhi
    obtain ⟨q, m1, page, perm, _, hq, hitem, hentry, hframe⟩ :=
      h.entry hv hbooks hfailed hlo hhi
    cases hitem
    exact ⟨h.absent hfailed hlo hhi, q, hq, hentry, hframe⟩
  refs := fun q hq => h.refs_old hv hq
  single := by
    intro read' valid' K' U' _ hbooks'
    refine h.unshared hv hbooks' ?_
    intro u hlo hhi q hq
    simp [PageDir.maps, h.absent hfailed hlo hhi] at hq
  took := h.took

theorem resize_calm [Reading read] {m m' : Mem} {d d' : PageDir} {sz sz' : Nat} {K U : Nat → ℕ}
    (hn : 0 ≤ n) (hsz : sz ≤ kernbase) (hbooks : Books read valid m (K + d.own) (U + d.refs))
    (h : resize m d sz n = some (sz', d', m')) (hfailed : m'.kfailed = false) :
    Grown m d (pages sz) (pages (growSize sz n)) d' m' ∧
      sz' = if n ≠ 0 ∧ kernbase ≤ grownSize sz n then 0 else growSize sz n := by
  unfold resize at h
  split at h
  · rename_i hpos
    rcases allocuvm_cases h with ⟨rfl, rfl, ⟨hbig, rfl⟩ | ⟨hlt, rfl⟩⟩ |
      ⟨hle, hlt, ok, d1, m1, hfills, hend⟩
    · have hsize : growSize sz n = sz := if_pos (Or.inr (Or.inl hbig))
      rw [hsize, if_pos ⟨by omega, hbig⟩]
      exact ⟨grown_refl _ _ _, rfl⟩
    · have hsize : growSize sz' n = sz' := if_pos (Or.inr (Or.inr hlt))
      rw [hsize, if_neg (by omega)]
      exact ⟨grown_refl _ _ _, rfl⟩
    · have hsize : growSize sz n = grownSize sz n := if_neg (by omega)
      have hmono := pages_mono hle
      have hupages := pages_le_upages (Nat.le_of_lt hlt)
      rcases hend with ⟨_, rfl, rfl, rfl⟩ | ⟨rfl, _, result, hdealloc⟩
      · rw [hsize, if_neg (by omega)]
        have hgrown := hfills.grown (by omega) hbooks hfailed
        rw [Nat.add_sub_cancel' hmono] at hgrown
        exact ⟨hgrown, rfl⟩
      · rw [(gave_deallocuvm hdealloc).failed, hfills.failed] at hfailed
        cases hfailed
  · rw [if_neg (by omega)] at h
    cases h
    have hzero : n = 0 := by omega
    have hsize : growSize sz n = sz := if_pos (Or.inl hzero)
    rw [hsize, if_neg (by omega)]
    exact ⟨grown_refl _ _ _, rfl⟩

theorem growproc_calm [Reading read] (h : Inv read valid s) (hn : 0 ≤ n)
    (hcall : growproc s p n = some (s', out)) (hfailed : s'.mem.kfailed = false) :
    ∃ d d', (s.procs p).pgdir = some d ∧ out = growOut (s.procs p).sz n ∧
      s' = { s.setProc p { s.procs p with
        pgdir := some d', sz := growSize (s.procs p).sz n } with mem := s'.mem } ∧
      Grown s.mem d (pages (s.procs p).sz) (pages (growSize (s.procs p).sz n)) d' s'.mem := by
  obtain ⟨d, sz', d', m, hpgdir, hresize, hend⟩ := growproc_cases hcall
  have hmem : s'.mem = m := by
    rcases hend with ⟨_, _, _, rfl⟩ | ⟨_, _, rfl⟩ <;> rfl
  obtain ⟨hgrown, hsz'⟩ :=
    resize_calm hn (h.size p) (h.books_dir hpgdir) hresize (hmem ▸ hfailed)
  refine ⟨d, d', hpgdir, ?_, ?_, hmem ▸ hgrown⟩
  · unfold growOut
    unfold growSize at hsz'
    rcases hend with ⟨hzero, hne, rfl, _⟩ | ⟨hok, rfl, _⟩
    · rw [if_pos]
      refine ⟨hne, ?_⟩
      split_ifs at hsz' <;> omega
    · rw [if_neg]
      rintro ⟨hne, hbad⟩
      refine hne (hok ?_)
      split_ifs at hsz' <;> omega
  · rcases hend with ⟨hzero, hne, _, rfl⟩ | ⟨hok, _, rfl⟩
    · have hsize : growSize (s.procs p).sz n = (s.procs p).sz := by
        unfold growSize at hsz' ⊢
        split_ifs at hsz' ⊢ <;> omega
      rw [hsize]
      rfl
    · have hsize : growSize (s.procs p).sz n = sz' := by
        unfold growSize at hsz' ⊢
        split_ifs at hsz' ⊢ <;> omega
      rw [hsize]

end

/-- A handled fault on page `v`: the shared page of the entry is copied to a free
one, or taken over when this is its only mapping. -/
structure Unshares (s : Machine) (d : PageDir) (v : Nat) (pte : Pte) (d' : PageDir) (m : Mem) :
    Prop where
  entry : d.present v = some pte
  sh : pte.flags.sh = true
  others : ∀ u, u ≠ v → d'.present u = d.present u
  moved : (∃ q, q ∈ s.mem.freelist ∧ 1 < s.mapped pte.ppn ∧
      d'.present v = some { pte.unshare with ppn := q } ∧ s.mem.Took m ∧
      m.frame q = s.mem.frame pte.ppn) ∨
    (s.mapped pte.ppn = 1 ∧ d'.present v = some pte.unshare ∧ m = s.mem)

section

variable {read : ℤ → ℤ} {valid : Nat → Prop} {s s' : Machine} {p : Slot} {d d' : PageDir} {v : Nat}
    {m : Mem}

theorem CowCopies.refused_calm (h : CowCopies s.mem d v false d' m) (hfailed : m.kfailed = false) :
    d' = d ∧ m = s.mem := by
  cases h with
  | refused => exact ⟨rfl, rfl⟩
  | failed hfail =>
    rw [(lost_kalloc hfail).failed] at hfailed
    cases hfailed

theorem pgfault_killed_dirs {va : Nat} (hfault : pgfault s p va = some (s', .killed))
    (hcalm : s'.mem.kfailed = false) (c : Slot) : (s'.procs c).pgdir = (s.procs c).pgdir := by
  obtain ⟨d, ok, d', m, hd, hcopy, ⟨_, hout, _⟩ | ⟨rfl, _, hexit⟩⟩ := pgfault_cases hfault
  · cases hout
  · obtain ⟨_, hmem, _⟩ := exit_cases hexit
    obtain ⟨rfl, _⟩ := (cowCopyuvm_copies hcopy).refused_calm (by rw [← hcalm, hmem])
    rw [exit_pgdir hexit c]
    by_cases hc : c = p
    · subst hc
      simp [hd]
    · simp [hc]

theorem CowCopies.unshares [Reading read] (h : Inv read valid s) (hd : (s.procs p).pgdir = some d)
    (hcopies : CowCopies s.mem d v true d' m) : ∃ pte, Unshares s d v pte d' m := by
  have hwf := h.wf p d hd
  have hcount : ∀ {pte}, d.present v = some pte →
      read (s.mem.counters pte.ppn) = s.mapped pte.ppn ∧ 0 < s.mapped pte.ppn := by
    intro pte hentry
    have hpos := maps_le_mapped hd (wf_present hwf hentry) (maps_eq_some.mpr ⟨pte, hentry, rfl⟩)
    exact ⟨h.books.exact _ hpos, hpos⟩
  cases hcopies with
  | @copied pte q m1 hlookup hsh hcounter hq =>
    have hentry := present_of_sh hwf hlookup hsh
    have hp := (present_eq_some.mp hentry).2
    have hread : 1 < read (s.mem.counters pte.ppn) := Reading.many _ hcounter
    have hexact := (hcount hentry).1
    refine ⟨pte, hentry, hsh, fun u hu => present_setPte_of_ne hu, Or.inl ⟨q, kalloc_mem hq, ?_, ?_,
      ?_, ?_⟩⟩
    · omega
    · exact present_setPte_self hlookup (by simpa [Pte.unshare] using hp)
    · exact (((took_kalloc hq).setFrame (kalloc_mem hq) _).setCounter _).setCounter _
    · simp [Mem.setCounter, Mem.setFrame]
  | @taken pte hlookup hsh hcounter =>
    have hentry := present_of_sh hwf hlookup hsh
    have hp := (present_eq_some.mp hentry).2
    have hread : read (s.mem.counters pte.ppn) ≤ 1 := Reading.few _ hcounter
    obtain ⟨hexact, hpos⟩ := hcount hentry
    refine ⟨pte, hentry, hsh, fun u hu => present_setPte_of_ne hu, Or.inr ⟨?_, ?_, rfl⟩⟩
    · omega
    · exact present_setPte_self hlookup (by simpa [Pte.unshare] using hp)

end

end Xv6.Vm
