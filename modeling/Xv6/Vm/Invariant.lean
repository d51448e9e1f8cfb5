import Xv6.Vm.Loading
import Xv6.Vm.Process

/-! The invariant of the machine: the books of the whole process table balance.
Each call keeps it, some under a condition on sharing. -/
namespace Xv6.Vm
open Ledger

attribute [local simp] Machine.setProc emptyTable listed_cons

/-- The pages that belong to a process alone: its stack and its page tables. -/
def Proc.own (proc : Proc) : Nat → ℕ :=
  listed proc.kstack.toList + proc.pgdir.elim 0 PageDir.own

def Proc.refs (proc : Proc) : Nat → ℕ :=
  proc.pgdir.elim 0 PageDir.refs

def Machine.owned (s : Machine) : Nat → ℕ :=
  ∑ p, (s.procs p).own

/-- How many present user entries, over all page directories, point to a frame. -/
def Machine.mapped (s : Machine) : Nat → ℕ :=
  ∑ p, (s.procs p).refs

structure Inv (read : ℤ → ℤ) (valid : Nat → Prop) (s : Machine) : Prop where
  books : Books read valid s.mem s.owned s.mapped
  wf : ∀ p d, (s.procs p).pgdir = some d → d.Wf
  size : ∀ p, (s.procs p).sz ≤ kernbase
  unused : ∀ p, (s.procs p).state = .unused →
    (s.procs p).pgdir = none ∧ (s.procs p).kstack = none

variable {proc x : Proc} {d : PageDir} {c : Slot}

section

variable {s : Machine} {p : Slot}

theorem owned_setProc (s : Machine) (p : Slot) (x : Proc) (q : Nat) :
    (s.setProc p x).owned q + (s.procs p).own q = s.owned q + x.own q :=
  congrFun (sum_update Proc.own s.procs p x) q

theorem mapped_setProc (s : Machine) (p : Slot) (x : Proc) (q : Nat) :
    (s.setProc p x).mapped q + (s.procs p).refs q = s.mapped q + x.refs q :=
  congrFun (sum_update Proc.refs s.procs p x) q

theorem own_le_owned (s : Machine) (p : Slot) (q : Nat) : (s.procs p).own q ≤ s.owned q :=
  le_sum_apply (fun p => (s.procs p).own) p q

theorem refs_le_mapped (s : Machine) (p : Slot) (q : Nat) : (s.procs p).refs q ≤ s.mapped q :=
  le_sum_apply (fun p => (s.procs p).refs) p q

theorem Proc.own_some (h : proc.pgdir = some d) :
    proc.own = listed proc.kstack.toList + d.own := by
  rw [Proc.own, h, Option.elim_some]

theorem Proc.refs_some (h : proc.pgdir = some d) :
    proc.refs = d.refs := by
  rw [Proc.refs, h, Option.elim_some]

theorem mapped_congr {s' : Machine} (h : ∀ c, (s'.procs c).pgdir = (s.procs c).pgdir) :
    s'.mapped = s.mapped := by
  refine Finset.sum_congr rfl ?_
  intro c _
  rw [Proc.refs, Proc.refs, h c]

theorem maps_le_mapped {v q : Nat} (hd : (s.procs p).pgdir = some d)
    (hv : v < upages) (hmaps : d.maps v = some q) : 0 < s.mapped q := by
  have hle := refs_le_mapped s p q
  rw [Proc.refs_some hd] at hle
  have := refs_pos.mpr ⟨v, hv, hmaps⟩
  omega

def Machine.ownedElse (s : Machine) (p : Slot) : Nat → ℕ :=
  fun q => s.owned q - (s.procs p).own q

def Machine.mappedElse (s : Machine) (p : Slot) : Nat → ℕ :=
  fun q => s.mapped q - (s.procs p).refs q

theorem ownedElse_add (s : Machine) (p : Slot) : s.ownedElse p + (s.procs p).own = s.owned := by
  funext q
  exact Nat.sub_add_cancel (own_le_owned s p q)

theorem mappedElse_add (s : Machine) (p : Slot) :
    s.mappedElse p + (s.procs p).refs = s.mapped := by
  funext q
  exact Nat.sub_add_cancel (refs_le_mapped s p q)

theorem owned_replace (s : Machine) (p : Slot) (x : Proc) :
    (s.setProc p x).owned = s.ownedElse p + x.own := by
  funext q
  have hset := owned_setProc s p x q
  have hle := own_le_owned s p q
  simp only [Machine.ownedElse, Pi.add_apply]
  omega

theorem mapped_replace (s : Machine) (p : Slot) (x : Proc) :
    (s.setProc p x).mapped = s.mappedElse p + x.refs := by
  funext q
  have hset := mapped_setProc s p x q
  have hle := refs_le_mapped s p q
  simp only [Machine.mappedElse, Pi.add_apply]
  omega

@[simp] theorem setProc_self (s : Machine) (p : Slot) (x : Proc) : (s.setProc p x).procs p = x := by
  simp

theorem setProc_of_ne (s : Machine) {p : Slot} (x : Proc) (h : c ≠ p) :
    (s.setProc p x).procs c = s.procs c := by
  simp [h]

theorem ownedElse_setProc (hc : c ≠ p) (hown : x.own = (s.procs p).own) :
    (s.setProc p x).ownedElse c = s.ownedElse c := by
  funext q
  have hset := owned_setProc s p x q
  rw [hown] at hset
  simp only [Machine.ownedElse, setProc_of_ne s x hc]
  omega

theorem mappedElse_setProc (hc : c ≠ p)
    (hrefs : x.refs = (s.procs p).refs) : (s.setProc p x).mappedElse c = s.mappedElse c := by
  funext q
  have hset := mapped_setProc s p x q
  rw [hrefs] at hset
  simp only [Machine.mappedElse, setProc_of_ne s x hc]
  omega

end

section

variable {read : ℤ → ℤ} {valid : Nat → Prop} {s : Machine}

structure Proc.Ok (proc : Proc) : Prop where
  wf : ∀ d, proc.pgdir = some d → d.Wf
  size : proc.sz ≤ kernbase
  unused : proc.state = .unused → proc.pgdir = none ∧ proc.kstack = none

theorem Inv.ok (h : Inv read valid s) (p : Slot) : (s.procs p).Ok :=
  ⟨h.wf p, h.size p, h.unused p⟩

theorem Inv.of_ok (hbooks : Books read valid s.mem s.owned s.mapped) (h : ∀ p, (s.procs p).Ok) :
    Inv read valid s :=
  ⟨hbooks, fun p => (h p).wf, fun p => (h p).size, fun p => (h p).unused⟩

theorem Inv.books_else (h : Inv read valid s) (p : Slot) :
    Books read valid s.mem (s.ownedElse p + (s.procs p).own)
      (s.mappedElse p + (s.procs p).refs) := by
  rw [ownedElse_add, mappedElse_add]
  exact h.books

theorem Inv.replace (h : Inv read valid s) {p : Slot} {m : Mem} (hx : x.Ok)
    (hbooks : Books read valid m (s.ownedElse p + x.own) (s.mappedElse p + x.refs)) :
    Inv read valid { s.setProc p x with mem := m } := by
  refine Inv.of_ok ?_ ?_
  · have howned : ({ s.setProc p x with mem := m } : Machine).owned = (s.setProc p x).owned := rfl
    have hmapped : ({ s.setProc p x with mem := m } : Machine).mapped = (s.setProc p x).mapped :=
      rfl
    rw [howned, hmapped, owned_replace, mapped_replace]
    exact hbooks
  · intro c
    by_cases hc : c = p
    · subst hc
      simpa using hx
    · simpa [hc] using h.ok c

theorem Inv.rewrite (h : Inv read valid s) {p : Slot} (hx : x.Ok)
    (hown : x.own = (s.procs p).own) (hrefs : x.refs = (s.procs p).refs) :
    Inv read valid (s.setProc p x) := by
  have hbooks := h.books_else p
  rw [← hown, ← hrefs] at hbooks
  exact h.replace hx hbooks

theorem Inv.withMem (h : Inv read valid s) {m : Mem} (hbooks : Books read valid m s.owned s.mapped)
    : Inv read valid { s with mem := m } :=
  Inv.of_ok hbooks h.ok

end

section Fork

variable {read : ℤ → ℤ} {valid : Nat → Prop} {s s' : Machine} {p : Slot}

theorem unusedSlot_state (h : s.unusedSlot = some c) : (s.procs c).state = .unused := by
  simpa using List.find?_some h

theorem allocproc_cases {result : Option Slot} (h : allocproc s = (result, s')) :
    (result = none ∧ s.unusedSlot = none ∧ s' = s) ∨
    (∃ c m, result = none ∧ s.unusedSlot = some c ∧ kalloc s.mem = (none, m) ∧
      s' = { s.setProc c { s.procs c with state := .embryo } with mem := m }) ∨
    ∃ c q m, result = some c ∧ s.unusedSlot = some c ∧ kalloc s.mem = (some q, m) ∧
      s' = { s.setProc c { s.procs c with state := .embryo, kstack := some q } with mem := m } := by
  unfold allocproc at h
  split at h
  · rename_i hslot
    cases h
    exact Or.inl ⟨rfl, hslot, rfl⟩
  · rename_i c hslot
    simp only at h
    split at h
    · rename_i m hfail
      cases h
      exact Or.inr (Or.inl ⟨c, m, rfl, hslot, hfail, rfl⟩)
    · rename_i q m hq
      cases h
      refine Or.inr (Or.inr ⟨c, q, m, rfl, hslot, hq, ?_⟩)
      simp

theorem inv_allocproc {result : Option Slot} (h : Inv read valid s)
    (halloc : allocproc s = (result, s')) : Inv read valid s' := by
  rcases allocproc_cases halloc with ⟨_, _, rfl⟩ | ⟨c, m, _, _, hfail, rfl⟩ |
    ⟨c, q, m, _, hslot, hq, rfl⟩
  · exact h
  · refine h.replace ⟨h.wf c, h.size c, by simp⟩ ?_
    exact books_kalloc_none (h.books_else c) hfail
  · refine h.replace ⟨h.wf c, h.size c, by simp⟩ ?_
    obtain ⟨hpgdir, hkstack⟩ := h.unused c (unusedSlot_state hslot)
    refine (books_kalloc (h.books_else c) hq).congr ?_ (fun _ => rfl)
    intro r
    simp [Proc.own, hpgdir, hkstack]

theorem allocproc_some (h : Inv read valid s) (halloc : allocproc s = (some c, s')) :
    s.unusedSlot = some c ∧ (∀ p, p ≠ c → s'.procs p = s.procs p) ∧
      (s'.procs c).pgdir = none ∧ s'.initproc = s.initproc ∧
      ∃ q, kalloc s.mem = (some q, s'.mem) ∧
        s'.procs c = { s.procs c with state := .embryo, kstack := some q } := by
  rcases allocproc_cases halloc with ⟨hnone, _⟩ | ⟨_, _, hnone, _⟩ | ⟨c', q, m, hc, hslot, hq, rfl⟩
  · cases hnone
  · cases hnone
  · cases hc
    refine ⟨hslot, fun p hp => setProc_of_ne s _ hp, ?_, rfl, q, hq, setProc_self s c _⟩
    simpa using (h.unused c (unusedSlot_state hslot)).1

theorem allocproc_ne (h : Inv read valid s) (hp : (s.procs p).state = .runnable)
    (halloc : allocproc s = (some c, s')) : c ≠ p ∧ s'.procs p = s.procs p := by
  obtain ⟨hslot, hothers, _⟩ := allocproc_some h halloc
  have hne : c ≠ p := by
    rintro rfl
    have hunused := unusedSlot_state hslot
    rw [hp] at hunused
    cases hunused
  exact ⟨hne, hothers p hne.symm⟩

/-- The ways through `fork` and `cow_fork`. -/
inductive Forks (dup : Mem → PageDir → Nat → Option (Option PageDir × PageDir × Mem))
    (s : Machine) (p : Slot) : Machine → Outcome → Prop where
  | noSlot {s1} (halloc : allocproc s = (none, s1)) : Forks dup s p s1 .failed
  | undone {c s1 src src' m1 q m2} (halloc : allocproc s = (some c, s1))
      (hsrc : (s1.procs p).pgdir = some src)
      (hdup : dup s1.mem src (s1.procs p).sz = some (none, src', m1))
      (hstack : (s1.procs c).kstack = some q) (hfree : kfree m1 q = some m2) :
      Forks dup s p
        { (s1.setDir p src').setProc c { (s1.setDir p src').procs c with
            pgdir := none, kstack := none, state := .unused } with mem := m2 } .failed
  | child {c s1 src src' d m1} (halloc : allocproc s = (some c, s1))
      (hsrc : (s1.procs p).pgdir = some src)
      (hdup : dup s1.mem src (s1.procs p).sz = some (some d, src', m1)) :
      Forks dup s p
        { (s1.setDir p src').setProc c { (s1.setDir p src').procs c with
            pgdir := some d, sz := ((s1.setDir p src').procs p).sz, parent := some p,
            state := .runnable } with mem := m1 } (.child c)

variable {dup : Mem → PageDir → Nat → Option (Option PageDir × PageDir × Mem)} {out : Outcome}

theorem forkWith_forks (h : forkWith dup s p = some (s', out)) : Forks dup s p s' out := by
  unfold forkWith at h
  split at h
  · rename_i s1 halloc
    cases h
    exact .noSlot halloc
  · rename_i c s1 halloc
    split at h
    · cases h
    · rename_i src hsrc
      split at h
      · cases h
      · rename_i src' m1 hdup
        split at h
        · cases h
        · rename_i q hstack
          obtain ⟨m2, hfree, hresult⟩ := Option.map_eq_some_iff.mp h
          cases hresult
          exact .undone halloc hsrc hdup hstack hfree
      · rename_i d src' m1 hdup
        cases h
        exact .child halloc hsrc hdup

/-- What the machine needs from the function that makes the child's directory. -/
structure DupKeeps (read : ℤ → ℤ) (valid : Nat → Prop) (m : Mem) (src : PageDir)
    (result : Option PageDir) (src' : PageDir) (m' : Mem) : Prop where
  wf : src'.Wf
  own : src'.own = src.own
  refs : src'.refs = src.refs
  undone : result = none → ∀ {K U}, (∀ q, src.refs q ≤ U q) → Books read valid m K U →
    Books read valid m' K U
  made : ∀ d, result = some d → d.Wf ∧ ∀ {K U}, (∀ q, src.refs q ≤ U q) → Books read valid m K U →
    Books read valid m' (K + d.own) (U + d.refs)

/-- The parent's entries were marked and the child's slot is filled or given
back. -/
theorem inv_marked {src src' : PageDir} {np : Proc} {m : Mem} (h : Inv read valid s)
    (hne : c ≠ p) (hsrc : (s.procs p).pgdir = some src) (hwf : src'.Wf)
    (hown : src'.own = src.own) (hrefs : src'.refs = src.refs) (hnp : np.Ok)
    (hbooks : Books read valid m (s.ownedElse c + np.own) (s.mappedElse c + np.refs)) :
    Inv read valid { (s.setDir p src').setProc c np with mem := m } := by
  have hownp : ({ s.procs p with pgdir := some src' } : Proc).own = (s.procs p).own := by
    rw [Proc.own_some hsrc, Proc.own_some rfl, hown]
  have hrefsp : ({ s.procs p with pgdir := some src' } : Proc).refs = (s.procs p).refs := by
    rw [Proc.refs_some hsrc, Proc.refs_some rfl, hrefs]
  have hmarked : Inv read valid (s.setDir p src') := by
    refine h.rewrite ⟨?_, h.size p, ?_⟩ hownp hrefsp
    · intro d hd
      cases hd
      exact hwf
    · intro hunused
      rw [(h.unused p hunused).1] at hsrc
      cases hsrc
  refine hmarked.replace hnp ?_
  rw [Machine.setDir, ownedElse_setProc hne hownp, mappedElse_setProc hne hrefsp]
  exact hbooks

theorem setDir_of_ne (hne : c ≠ p) (d : PageDir) :
    (s.setDir p d).procs c = s.procs c :=
  setProc_of_ne s _ hne

theorem Proc.new_own {q : Nat} (hpgdir : proc.pgdir = none)
    (hkstack : proc.kstack = some q) : proc.own = Pi.single q 1 := by
  simp [Proc.own, hpgdir, hkstack]

theorem Proc.empty_own (hpgdir : proc.pgdir = none) (hkstack : proc.kstack = none) :
    proc.own = 0 := by
  simp [Proc.own, hpgdir, hkstack]

theorem Proc.new_refs (hpgdir : proc.pgdir = none) : proc.refs = 0 := by
  simp [Proc.refs, hpgdir]

section

variable (h : Inv read valid s) (hp : (s.procs p).state = .runnable)
include h hp

theorem inv_forks
    (hdup : ∀ {c s1 src result src' m1}, allocproc s = (some c, s1) → Inv read valid s1 →
      (s.procs p).pgdir = some src →
      dup s1.mem src (s.procs p).sz = some (result, src', m1) → m1.kfailed = s'.mem.kfailed →
      DupKeeps read valid s1.mem src result src' m1)
    (hforks : Forks dup s p s' out) : Inv read valid s' := by
  cases hforks with
  | noSlot halloc => exact inv_allocproc h halloc
  | @undone c s1 src src' m1 q m2 halloc hsrc hcall hstack hfree =>
    obtain ⟨hne, hprocs⟩ := allocproc_ne h hp halloc
    obtain ⟨_, _, hpgdir, _⟩ := allocproc_some h halloc
    have h1 := inv_allocproc h halloc
    rw [hprocs] at hcall
    have hkeeps := hdup halloc h1 (by rwa [← hprocs]) hcall (gave_kfree hfree).failed.symm
    have hle : ∀ r, src.refs r ≤ s1.mapped r := by
      rw [← Proc.refs_some hsrc]
      exact refs_le_mapped s1 p
    have hbooks := hkeeps.undone rfl hle h1.books
    rw [← ownedElse_add s1 c, ← mappedElse_add s1 c, Proc.new_own hpgdir hstack,
      Proc.new_refs hpgdir] at hbooks
    refine inv_marked h1 hne hsrc hkeeps.wf hkeeps.own hkeeps.refs ⟨by simp, ?_, by simp⟩ ?_
    · rw [setDir_of_ne hne]
      exact h1.size c
    · rw [Proc.empty_own rfl rfl, Proc.new_refs rfl, add_zero]
      exact books_kfree hbooks hfree
  | @child c s1 src src' d m1 halloc hsrc hcall =>
    obtain ⟨hne, hprocs⟩ := allocproc_ne h hp halloc
    obtain ⟨_, _, hpgdir, _, q, _, hself⟩ := allocproc_some h halloc
    have hstack : (s1.procs c).kstack = some q := by rw [hself]
    have h1 := inv_allocproc h halloc
    rw [hprocs] at hcall
    have hkeeps := hdup halloc h1 (by rwa [← hprocs]) hcall rfl
    have hle : ∀ r, src.refs r ≤ s1.mapped r := by
      rw [← Proc.refs_some hsrc]
      exact refs_le_mapped s1 p
    obtain ⟨hwf, hmade⟩ := hkeeps.made d rfl
    have hbooks := hmade hle h1.books
    rw [← ownedElse_add s1 c, ← mappedElse_add s1 c, Proc.new_own hpgdir hstack,
      Proc.new_refs hpgdir, add_zero, add_assoc] at hbooks
    refine inv_marked h1 hne hsrc hkeeps.wf hkeeps.own hkeeps.refs ⟨?_, ?_, by simp⟩ ?_
    · intro d' hd'
      cases hd'
      exact hwf
    · simpa [Machine.setDir] using h1.size p
    · rw [Proc.own_some rfl, Proc.refs_some rfl, setDir_of_ne hne, hstack]
      simpa using hbooks

theorem inv_fork [Reading read]
    (hfork : fork s p = some (s', out)) : Inv read valid s' := by
  refine inv_forks h hp ?_ (forkWith_forks hfork)
  intro c s1 src result src' m1 halloc h1 hsrc hcall _
  obtain ⟨⟨made, m2⟩, hcopy, hresult⟩ := Option.map_eq_some_iff.mp hcall
  cases hresult
  have hsz := pages_le_upages (h.size p)
  refine ⟨h.wf p src hsrc, rfl, rfl, ?_, ?_⟩
  · rintro rfl K U _ hbooks
    exact books_copyuvm hsz hbooks hcopy
  · rintro d rfl
    exact ⟨(books_copyuvm hsz h1.books hcopy).1,
      fun _ hbooks => (books_copyuvm hsz hbooks hcopy).2⟩

theorem inv_cowFork [Reading read]
    (hroom : s'.mem.kfailed = true → RoomToShare (s.mem.freelist.length - 1) (s.procs p).sz)
    (hfork : cowFork s p = some (s', out)) : Inv read valid s' := by
  refine inv_forks h hp ?_ (forkWith_forks hfork)
  intro c s1 src result src' m1 halloc h1 hsrc hcall hfailed
  have hsz := pages_le_upages (h.size p)
  obtain ⟨hown, hrefs⟩ := cowShareuvm_src hcall
  have hroom1 : m1.kfailed = true → RoomToShare s1.mem.freelist.length (s.procs p).sz := by
    intro hm1
    obtain ⟨_, _, _, _, q, hq, _⟩ := allocproc_some h halloc
    obtain ⟨rest, hfree, hmem⟩ := kalloc_some hq
    have hlength : s1.mem.freelist.length = s.mem.freelist.length - 1 := by
      simp [hmem, hfree]
    rw [hlength]
    exact hroom (hfailed ▸ hm1)
  refine ⟨wf_cowShareuvm_src (h.wf p src hsrc) hcall, hown, hrefs, ?_, ?_⟩
  · rintro rfl K U hle hbooks
    exact books_cowShareuvm hsz hle hroom1 hbooks hcall
  · rintro d rfl
    refine ⟨?_, fun hle hbooks => (books_cowShareuvm hsz hle hroom1 hbooks hcall).2⟩
    have hle : ∀ r, src.refs r ≤ s1.mapped r := by
      have hprocs := (allocproc_ne h hp halloc).2
      rw [← Proc.refs_some (hprocs ▸ hsrc)]
      exact refs_le_mapped s1 p
    exact (books_cowShareuvm hsz hle hroom1 h1.books hcall).1

end

end Fork

variable {d' : PageDir}

section

variable {read : ℤ → ℤ} {valid : Nat → Prop} {s s' : Machine} {p : Slot} {out : Outcome}

theorem Inv.relabel (h : Inv read valid s) (hmem : s'.mem = s.mem)
    (hsame : ∀ c, (s'.procs c).pgdir = (s.procs c).pgdir ∧
      (s'.procs c).kstack = (s.procs c).kstack ∧ (s'.procs c).sz = (s.procs c).sz)
    (hunused : ∀ c, (s'.procs c).state = .unused → (s.procs c).state = .unused) :
    Inv read valid s' := by
  have howned : s'.owned = s.owned := by
    refine Finset.sum_congr rfl ?_
    intro c _
    rw [Proc.own, Proc.own, (hsame c).1, (hsame c).2.1]
  refine Inv.of_ok ?_ ?_
  · rw [hmem, howned, mapped_congr fun c => (hsame c).1]
    exact h.books
  · intro c
    obtain ⟨hpgdir, hkstack, hsz⟩ := hsame c
    refine ⟨?_, ?_, ?_⟩
    · rw [hpgdir]
      exact h.wf c
    · rw [hsz]
      exact h.size c
    · intro hstate
      rw [hpgdir, hkstack]
      exact h.unused c (hunused c hstate)

theorem exit_cases (h : exit s p = some s') :
    p ≠ s.initproc ∧ s'.mem = s.mem ∧ s'.initproc = s.initproc ∧
      (s'.procs p) = { reparent s p (s.procs p) with state := .zombie } ∧
      ∀ c, c ≠ p → s'.procs c = reparent s p (s.procs c) := by
  unfold exit at h
  split at h
  · cases h
  · rename_i hinit
    cases h
    refine ⟨hinit, rfl, rfl, by simp, ?_⟩
    intro c hc
    simp [hc]

theorem reparent_same (s : Machine) (p : Slot) (proc : Proc) :
    (reparent s p proc).pgdir = proc.pgdir ∧ (reparent s p proc).kstack = proc.kstack ∧
      (reparent s p proc).sz = proc.sz ∧ (reparent s p proc).state = proc.state ∧
      (reparent s p proc).killed = proc.killed := by
  unfold reparent
  split <;> exact ⟨rfl, rfl, rfl, rfl, rfl⟩

theorem exit_pgdir (h : exit s p = some s') (c : Slot) :
    (s'.procs c).pgdir = (s.procs c).pgdir := by
  obtain ⟨_, _, _, hself, hother⟩ := exit_cases h
  by_cases hc : c = p
  · subst hc
    rw [hself]
    exact (reparent_same s c (s.procs c)).1
  · rw [hother c hc]
    exact (reparent_same s p (s.procs c)).1

theorem inv_exit (h : Inv read valid s) (hexit : exit s p = some s') : Inv read valid s' := by
  obtain ⟨_, hmem, _, hself, hother⟩ := exit_cases hexit
  refine h.relabel hmem ?_ ?_
  · intro c
    by_cases hc : c = p
    · subst hc
      obtain ⟨hpgdir, hkstack, hsz, _⟩ := reparent_same s c (s.procs c)
      rw [hself]
      exact ⟨hpgdir, hkstack, hsz⟩
    · obtain ⟨hpgdir, hkstack, hsz, _⟩ := reparent_same s p (s.procs c)
      rw [hother c hc]
      exact ⟨hpgdir, hkstack, hsz⟩
  · intro c
    by_cases hc : c = p
    · subst hc
      rw [hself]
      simp
    · rw [hother c hc, (reparent_same s p (s.procs c)).2.2.2.1]
      exact id

theorem waitWith_cases {free : Mem → PageDir → Option Mem}
    (h : waitWith free s p = some (s', out)) :
    (s.zombieChild p = none ∧ s' = s ∧
      out = if (∃ c, (s.procs c).parent = some p) ∧ (s.procs p).killed = false then .blocked
        else .failed) ∨
    ∃ c q d m1 m2, s.zombieChild p = some c ∧ out = .reaped c ∧
      (s.procs c).kstack = some q ∧ (s.procs c).pgdir = some d ∧ kfree s.mem q = some m1 ∧
      free m1 d = some m2 ∧
      s' = { s.setProc c { s.procs c with
        kstack := none, pgdir := none, state := .unused, parent := none, killed := false } with
          mem := m2 } := by
  unfold waitWith at h
  split at h
  · rename_i hzombie
    refine Or.inl ⟨hzombie, ?_⟩
    split at h <;> rename_i hcond <;> cases h <;> simp [hcond]
  · rename_i c hzombie
    split at h
    · rename_i q d hkstack hpgdir
      obtain ⟨m1, hm1, hrest⟩ := Option.bind_eq_some_iff.mp h
      obtain ⟨m2, hm2, hresult⟩ := Option.map_eq_some_iff.mp hrest
      cases hresult
      exact Or.inr ⟨c, q, d, m1, m2, hzombie, rfl, hkstack, hpgdir, hm1, hm2, rfl⟩
    · cases h

section

variable (h : Inv read valid s)
include h

theorem Inv.books_reaped {q : Nat} {m : Mem}
    (hkstack : (s.procs c).kstack = some q) (hpgdir : (s.procs c).pgdir = some d)
    (hfree : kfree s.mem q = some m) :
    Books read valid m (s.ownedElse c + d.own) (s.mappedElse c + d.refs) := by
  have hbooks := h.books_else c
  rw [Proc.own_some hpgdir, Proc.refs_some hpgdir, hkstack] at hbooks
  refine books_kfree (hbooks.congr ?_ fun _ => rfl) hfree
  intro r
  simp only [Option.toList_some, listed_cons, listed_nil, Pi.add_apply, Pi.zero_apply]
  omega

theorem inv_waitWith {free : Mem → PageDir → Option Mem}
    (hfree : ∀ {c d m m'}, s.zombieChild p = some c → (s.procs c).pgdir = some d →
      Books read valid m (s.ownedElse c + d.own) (s.mappedElse c + d.refs) → free m d = some m' →
      Books read valid m' (s.ownedElse c) (s.mappedElse c))
    (hwait : waitWith free s p = some (s', out)) : Inv read valid s' := by
  rcases waitWith_cases hwait with ⟨_, rfl, _⟩ |
    ⟨c, q, d, m1, m2, hzombie, _, hkstack, hpgdir, hm1, hm2, rfl⟩
  · exact h
  · refine h.replace ⟨by simp, h.size c, by simp⟩ ?_
    rw [Proc.empty_own rfl rfl, Proc.new_refs rfl, add_zero, add_zero]
    exact hfree hzombie hpgdir (h.books_reaped hkstack hpgdir hm1) hm2

theorem inv_wait (hunshared : ∀ c d, s.zombieChild p = some c → (s.procs c).pgdir = some d →
      Unshared s.mapped d 0 upages)
    (hwait : wait s p = some (s', out)) : Inv read valid s' := by
  refine inv_waitWith h ?_ hwait
  intro c d m m' hzombie hpgdir hbooks hfree
  refine books_freevm hbooks ?_ hfree
  have hone := hunshared c d hzombie hpgdir
  rwa [← mappedElse_add s c, Proc.refs_some hpgdir] at hone

theorem inv_cowWait [Reading read] (hwait : cowWait s p = some (s', out)) :
    Inv read valid s' := by
  refine inv_waitWith h ?_ hwait
  intro c d m m' _ _ hbooks hfree
  exact books_cowFreevm hbooks hfree

theorem inv_newDir {m : Mem}
    (hpgdir : (s.procs p).pgdir = some d) (hx : x.pgdir = some d')
    (hkstack : x.kstack = (s.procs p).kstack) (hstate : x.state = (s.procs p).state)
    (hwf : d'.Wf) (hsz : x.sz ≤ kernbase)
    (hbooks : Books read valid m (s.ownedElse p + listed (s.procs p).kstack.toList + d'.own)
      (s.mappedElse p + d'.refs)) :
    Inv read valid { s.setProc p x with mem := m } := by
  refine h.replace ⟨?_, hsz, ?_⟩ ?_
  · intro d1 hd1
    rw [hx] at hd1
    cases hd1
    exact hwf
  · intro hunused
    rw [(h.unused p (hstate ▸ hunused)).1] at hpgdir
    cases hpgdir
  · rw [Proc.own_some hx, Proc.refs_some hx, hkstack, ← add_assoc]
    exact hbooks

theorem Inv.books_dir (hpgdir : (s.procs p).pgdir = some d) :
    Books read valid s.mem (s.ownedElse p + listed (s.procs p).kstack.toList + d.own)
      (s.mappedElse p + d.refs) := by
  have hbooks := h.books_else p
  rwa [Proc.own_some hpgdir, Proc.refs_some hpgdir, ← add_assoc] at hbooks

end

theorem mappedElse_dir (hpgdir : (s.procs p).pgdir = some d) :
    s.mappedElse p + d.refs = s.mapped := by
  rw [← Proc.refs_some hpgdir, mappedElse_add]

theorem growproc_cases {n : Int} (h : growproc s p n = some (s', out)) :
    ∃ d sz d' m, (s.procs p).pgdir = some d ∧
      resize s.mem d (s.procs p).sz n = some (sz, d', m) ∧
      (sz = 0 ∧ n ≠ 0 ∧ out = .failed ∧ s' = { s.setDir p d' with mem := m } ∨
        (sz = 0 → n = 0) ∧ out = .done ∧
          s' = { s.setProc p { s.procs p with pgdir := some d', sz := sz } with mem := m }) := by
  unfold growproc at h
  split at h
  · cases h
  · rename_i d hpgdir
    split at h
    · cases h
    · rename_i sz d' m hresize
      refine ⟨d, sz, d', m, hpgdir, hresize, ?_⟩
      split at h
      · rename_i hfail
        cases h
        exact Or.inl ⟨hfail.1, hfail.2, rfl, rfl⟩
      · rename_i hfail
        cases h
        exact Or.inr ⟨fun hsz => by_contra fun hn => hfail ⟨hsz, hn⟩, rfl, rfl⟩

theorem deallocuvm_size {m m' : Mem} {oldsz newsz sz : Nat}
    (h : deallocuvm m d oldsz newsz = some (sz, d', m')) : sz ≤ oldsz := by
  unfold deallocuvm unmapRange at h
  split at h
  · cases h
    exact le_rfl
  · obtain ⟨result, _, hresult⟩ := Option.map_eq_some_iff.mp h
    cases hresult
    omega

theorem deallocuvm_dir {m m' : Mem} {oldsz newsz sz : Nat}
    (h : deallocuvm m d oldsz newsz = some (sz, d', m')) : d'.own = d.own ∧ (d.Wf → d'.Wf) := by
  rcases unmapRange_cases h with ⟨_, rfl, _⟩ | ⟨_, hloop⟩
  · exact ⟨rfl, id⟩
  · exact ⟨hloop.own, hloop.wf⟩

/-- `sbrk` of a positive number is safe unless it fails over entries that are
left above the size, `sbrk` of a negative number when the pages are not shared. -/
theorem inv_growproc [Reading read] {n : Int} (h : Inv read valid s)
    (hgrow : 0 < n → s'.mem.kfailed = true → ∀ d, (s.procs p).pgdir = some d →
      grownSize (s.procs p).sz n < kernbase →
      Unshared s.mapped d (pages (s.procs p).sz) (pages (grownSize (s.procs p).sz n)))
    (hshrink : n < 0 → ∀ d, (s.procs p).pgdir = some d →
      Unshared s.mapped d (pages (grownSize (s.procs p).sz n)) (pages (s.procs p).sz))
    (hcall : growproc s p n = some (s', out)) : Inv read valid s' := by
  obtain ⟨d, sz, d', m, hpgdir, hresize, hend⟩ := growproc_cases hcall
  have hbooks := h.books_dir hpgdir
  have hfailed : s'.mem.kfailed = m.kfailed := by
    rcases hend with ⟨_, _, _, rfl⟩ | ⟨_, _, rfl⟩ <;> rfl
  have hresult : d'.Wf ∧ sz ≤ kernbase ∧
      Books read valid m (s.ownedElse p + listed (s.procs p).kstack.toList + d'.own)
        (s.mappedElse p + d'.refs) := by
    unfold resize at hresize
    split at hresize
    · rename_i hpos
      refine ⟨wf_allocuvm (h.wf p d hpgdir) hresize, allocuvm_size (h.size p) hresize, ?_⟩
      refine books_allocuvm hbooks ?_ hresize
      intro hm hlt
      rw [mappedElse_dir hpgdir]
      exact hgrow hpos (hfailed.trans hm) d hpgdir hlt
    · split at hresize
      · rename_i hneg
        obtain ⟨hown, hwf⟩ := deallocuvm_dir hresize
        refine ⟨hwf (h.wf p d hpgdir), (deallocuvm_size hresize).trans (h.size p), ?_⟩
        rw [hown]
        refine books_deallocuvm hbooks (pages_le_upages (h.size p)) ?_ hresize
        rw [mappedElse_dir hpgdir]
        exact hshrink hneg d hpgdir
      · cases hresize
        exact ⟨h.wf p d hpgdir, h.size p, hbooks⟩
  obtain ⟨hwf, hsz, hbooks'⟩ := hresult
  rcases hend with ⟨_, _, _, rfl⟩ | ⟨_, _, rfl⟩
  · exact inv_newDir h hpgdir rfl rfl rfl hwf (h.size p) hbooks'
  · exact inv_newDir h hpgdir rfl rfl rfl hwf hsz hbooks'

theorem exec_cases {img : Image} (h : exec s p img = some (s', out)) :
    ∃ old, (s.procs p).pgdir = some old ∧
      ((∃ m, loadImage s.mem img = some (none, m) ∧ s' = { s with mem := m }) ∨
        ∃ d sz m1 m2, loadImage s.mem img = some (some (d, sz), m1) ∧ freevm m1 old = some m2 ∧
          s' = { s.setProc p { s.procs p with pgdir := some d, sz := sz } with mem := m2 }) := by
  unfold exec at h
  split at h
  · cases h
  · rename_i old hpgdir
    refine ⟨old, hpgdir, ?_⟩
    split at h
    · cases h
    · rename_i m hload
      cases h
      exact Or.inl ⟨m, hload, rfl⟩
    · rename_i d sz m1 hload
      obtain ⟨m2, hfree, hresult⟩ := Option.map_eq_some_iff.mp h
      cases hresult
      exact Or.inr ⟨d, sz, m1, m2, hload, hfree, rfl⟩

/-- A successful `exec` frees the old pages without looking at their counters. -/
theorem inv_exec [Reading read] {img : Image} (h : Inv read valid s)
    (hunshared : (∃ result m, loadImage s.mem img = some (some result, m)) →
      ∀ d, (s.procs p).pgdir = some d → Unshared s.mapped d 0 upages)
    (hexec : exec s p img = some (s', out)) : Inv read valid s' := by
  obtain ⟨old, hpgdir, ⟨m, hload, rfl⟩ | ⟨d, sz, m1, m2, hload, hfree, rfl⟩⟩ := exec_cases hexec
  · exact h.withMem (books_loadImage h.books hload)
  · obtain ⟨hprivate, hsz⟩ := books_loadImage h.books hload
    have hold := hunshared ⟨_, _, hload⟩ old hpgdir
    refine inv_newDir h hpgdir rfl rfl rfl hprivate.wf hsz (books_freevm ?_ ?_ hfree)
    · refine hprivate.books.congr ?_ ?_
      · intro r
        rw [← ownedElse_add s p, Proc.own_some hpgdir]
        simp only [Pi.add_apply]
        omega
      · intro r
        rw [← mappedElse_dir hpgdir]
        simp only [Pi.add_apply]
        omega
    · intro u hlo hhi q hq
      have hone := hold u hlo hhi q hq
      -- a page of the new image is mapped once, by the new image
      have hnew : d.refs q = 0 := by
        by_contra hne
        obtain ⟨w, hw, hmaps⟩ := refs_pos.mp (Nat.pos_of_ne_zero hne)
        have hw1 := hprivate.unshared w (Nat.zero_le w) hw q hmaps
        simp only [Pi.add_apply] at hw1
        omega
      rw [← mappedElse_dir hpgdir] at hone
      simp only [Pi.add_apply] at hone ⊢
      omega

variable {va : Nat}

theorem pgfault_cases (h : pgfault s p va = some (s', out)) :
    ∃ d ok d' m, (s.procs p).pgdir = some d ∧
      cowCopyuvm s.mem d va (s.procs p).sz = (ok, d', m) ∧
      (ok = true ∧ out = .retry ∧ s' = { s.setDir p d' with mem := m } ∨
        ok = false ∧ out = .killed ∧
          exit { s.setProc p { s.procs p with pgdir := some d', killed := true } with mem := m } p =
            some s') := by
  unfold pgfault at h
  split at h
  · cases h
  · rename_i d hpgdir
    split at h
    · rename_i d' m hcopy
      cases h
      exact ⟨d, true, d', m, hpgdir, hcopy, Or.inl ⟨rfl, rfl, rfl⟩⟩
    · rename_i d' m hcopy
      obtain ⟨s1, hexit, hresult⟩ := Option.map_eq_some_iff.mp h
      cases hresult
      exact ⟨d, false, d', m, hpgdir, hcopy, Or.inr ⟨rfl, rfl, hexit⟩⟩

theorem inv_pgfault [Reading read] (h : Inv read valid s)
    (hfault : pgfault s p va = some (s', out)) : Inv read valid s' := by
  obtain ⟨d, ok, d', m, hpgdir, hcopy, hend⟩ := pgfault_cases hfault
  have hcopies := cowCopyuvm_copies hcopy
  have hwf := h.wf p d hpgdir
  have hbooks : Books read valid m (s.ownedElse p + listed (s.procs p).kstack.toList + d'.own)
      (s.mappedElse p + d'.refs) := by
    rw [hcopies.own]
    exact hcopies.books hwf (h.books_dir hpgdir)
  rcases hend with ⟨_, _, rfl⟩ | ⟨_, _, hexit⟩
  · exact inv_newDir h hpgdir rfl rfl rfl (hcopies.wf hwf) (h.size p) hbooks
  · refine inv_exit ?_ hexit
    exact inv_newDir h hpgdir rfl rfl rfl (hcopies.wf hwf) (h.size p) hbooks

theorem load_cases (h : load s p va = some (s', out)) :
    (∃ d pte, (s.procs p).pgdir = some d ∧ d.present (va / pgsize) = some pte ∧
      pte.flags.u = true ∧ s' = s ∧ out = .loaded (s.mem.frame pte.ppn (offset va))) ∨
    ((∀ d pte, (s.procs p).pgdir = some d → d.present (va / pgsize) = some pte →
      pte.flags.u = false) ∧ pgfault s p va = some (s', out)) := by
  unfold load at h
  split at h
  · cases h
  · rename_i d hpgdir
    split at h
    · rename_i q w sh hlookup
      cases h
      exact Or.inl ⟨d, _, hpgdir, present_eq_some.mpr ⟨hlookup, rfl⟩, rfl, rfl, rfl⟩
    · rename_i hno
      refine Or.inr ⟨?_, h⟩
      intro d' pte hd' hentry
      rw [hpgdir] at hd'
      cases hd'
      obtain ⟨hlookup, hp⟩ := present_eq_some.mp hentry
      by_contra hu
      obtain ⟨q, present, w, u, sh⟩ := pte
      simp only [Bool.not_eq_false] at hp hu
      subst hp hu
      exact hno q w sh hlookup

theorem store_cases {byte : UInt8} (h : store s p va byte = some (s', out)) :
    (∃ d pte, (s.procs p).pgdir = some d ∧ d.present (va / pgsize) = some pte ∧
      pte.flags.w = true ∧ pte.flags.u = true ∧ out = .stored ∧
      s' = { s with mem := s.mem.writeByte pte.ppn (offset va) byte }) ∨
    ((∀ d pte, (s.procs p).pgdir = some d → d.present (va / pgsize) = some pte →
      pte.flags.w = true → pte.flags.u = false) ∧ pgfault s p va = some (s', out)) := by
  unfold store at h
  split at h
  · cases h
  · rename_i d hpgdir
    split at h
    · rename_i q sh hlookup
      cases h
      exact Or.inl ⟨d, _, hpgdir, present_eq_some.mpr ⟨hlookup, rfl⟩, rfl, rfl, rfl, rfl⟩
    · rename_i hno
      refine Or.inr ⟨?_, h⟩
      intro d' pte hd' hentry hw
      rw [hpgdir] at hd'
      cases hd'
      obtain ⟨hlookup, hp⟩ := present_eq_some.mp hentry
      by_contra hu
      obtain ⟨q, present, w, u, sh⟩ := pte
      simp only [Bool.not_eq_false] at hp hu hw
      subst hp hu hw
      exact hno q sh hlookup

theorem inv_load [Reading read] (h : Inv read valid s)
    (hload : load s p va = some (s', out)) : Inv read valid s' := by
  rcases load_cases hload with ⟨_, _, _, _, _, rfl, _⟩ | ⟨_, hfault⟩
  · exact h
  · exact inv_pgfault h hfault

theorem inv_store [Reading read] {byte : UInt8} (h : Inv read valid s)
    (hstore : store s p va byte = some (s', out)) : Inv read valid s' := by
  rcases store_cases hstore with ⟨_, _, _, _, _, _, _, rfl⟩ | ⟨_, hfault⟩
  · exact h.withMem h.books
  · exact inv_pgfault h hfault

theorem step_cases {next : Machine} {a : Act} (h : step s (p, a) = some next) :
    (s.procs p).state = .runnable ∧ ∃ out, act s p a = some (next, out) := by
  obtain ⟨⟨s1, out⟩, hout, rfl⟩ := Option.map_eq_some_iff.mp h
  obtain ⟨hstate, hact⟩ := Option.ite_none_right_eq_some.mp hout
  exact ⟨hstate, out, hact⟩

end

section Boot

variable {valid : Nat → Prop} {m m' : Mem} {s : Machine}

theorem inv_emptyTable (hnodup : m.freelist.Nodup) (hvalid : ∀ q ∈ m.freelist, valid q) :
    Inv effective valid ⟨emptyTable, 0, m⟩ := by
  have howned : (⟨emptyTable, 0, m⟩ : Machine).owned = 0 :=
    Finset.sum_eq_zero fun c _ => Proc.empty_own rfl rfl
  have hmapped : (⟨emptyTable, 0, m⟩ : Machine).mapped = 0 :=
    Finset.sum_eq_zero fun c _ => Proc.new_refs rfl
  refine Inv.of_ok ⟨?_, ?_, ?_⟩ ?_
  · intro r
    simpa [howned, hmapped] using List.nodup_iff_count_le_one.mp hnodup r
  · simp [hmapped]
  · intro r hr
    refine hvalid r (List.count_pos_iff.mp ?_)
    simpa [howned, hmapped] using hr
  · intro c
    exact ⟨by simp, by simp, by simp⟩

variable {init : Page}

theorem inituvm_cases (h : inituvm m d init = some (d', m')) :
    ∃ q m1, kalloc m = (some q, m1) ∧
      (Installed (m1.setFrame q init) d 0 q userFlags d' m' ∨
        d' = d ∧ kalloc (m1.setFrame q init) = (none, m')) := by
  unfold inituvm at h
  split at h
  · cases h
  · rename_i q m1 hq
    have hpage : mappages (m1.setFrame q init) d 0 pgsize (q * pgsize) userFlags =
        mapPage (m1.setFrame q init) d 0 q userFlags := mappages_page _ d 0 q userFlags
    rw [hpage] at h
    split at h
    · cases h
    · rename_i ok d1 m2 hmap
      cases h
      refine ⟨q, m1, hq, ?_⟩
      rcases mapPage_cases hmap with ⟨_, hinstall⟩ | ⟨_, hd, _, hfail⟩
      · exact Or.inl hinstall
      · exact Or.inr ⟨hd, hfail⟩

theorem books_inituvm {K U : Nat → ℕ} (hd : d.Fresh)
    (hzero : ∀ q, m.counters q = 0) (hbooks : Books effective valid m (K + d.own) (U + d.refs))
    (h : inituvm m d init = some (d', m')) :
    d'.Wf ∧ Books effective valid m' (K + d'.own) (U + d'.refs) := by
  obtain ⟨q, m1, hq, hinstall | ⟨rfl, hfail⟩⟩ := inituvm_cases h
  · refine ⟨hinstall.wf hd.wf (by decide), ?_⟩
    rw [refs_install (by decide) hinstall.absent hinstall.entry hinstall.others, ← add_assoc]
    refine Balanced.attach ?_ ?_
    · refine (hinstall.books (by decide) (books_kalloc_filled hbooks hq init)).congr ?_
        (fun _ => rfl)
      intro r
      simp only [Pi.add_apply]
      omega
    · obtain ⟨rest, _, hm1⟩ := kalloc_some hq
      simp [hinstall.counters, hm1, hzero, effective]
  · refine ⟨hd.wf, (books_kalloc_none (books_kalloc_filled hbooks hq init) hfail).mono ?_⟩
    intro r
    simp only [Pi.add_apply]
    omega

/-- The first process, in the slot `c` with directory `d'`. -/
structure Boots (m : Mem) (init : Page) (c : Slot) (d' : PageDir) (s : Machine) : Prop where
  parts : ∃ s1 d m1 q, allocproc ⟨emptyTable, 0, m⟩ = (some c, s1) ∧
    kalloc m = (some q, s1.mem) ∧ setupkvm s1.mem = (some d, m1) ∧
    inituvm m1 d init = some (d', s.mem) ∧
    s.procs c = ⟨.runnable, pgsize, some d', none, some q, false⟩
  others : ∀ x, x ≠ c → s.procs x = ⟨.unused, 0, none, none, none, false⟩
  initproc : s.initproc = c

theorem userinit_boots (h : userinit m init = some s) :
    ∃ c d', Boots m init c d' s := by
  unfold userinit at h
  split at h
  · cases h
  · rename_i c s1 halloc
    split at h
    · cases h
    · rename_i d m1 hsetup
      obtain ⟨⟨d', m2⟩, hinit, rfl⟩ := Option.map_eq_some_iff.mp h
      rcases allocproc_cases halloc with ⟨hnone, _⟩ | ⟨_, _, hnone, _⟩ | ⟨c', q, m', hc, _, hq, rfl⟩
      · cases hnone
      · cases hnone
      · cases hc
        refine ⟨c, d', ⟨_, d, m1, q, halloc, hq, hsetup, hinit, ?_⟩, ?_, rfl⟩
        · simp
        · intro x hx
          simp [hx]

theorem userinit_counters (h : userinit m init = some s) :
    s.mem.counters = m.counters := by
  obtain ⟨c, d', ⟨s1, d, m1, q, _, hq, hsetup, hinit, _⟩, _, _⟩ := userinit_boots h
  obtain ⟨_, _, hmem⟩ := kalloc_some hq
  obtain ⟨r, m2, hr, hend⟩ := inituvm_cases hinit
  obtain ⟨_, _, hm2⟩ := kalloc_some hr
  have hbefore : (m2.setFrame r init).counters = m.counters := by
    rw [setFrame_counters, hm2, counters_setupkvm hsetup, hmem]
  rcases hend with hinstall | ⟨_, hfail⟩
  · rw [hinstall.counters, hbefore]
  · obtain ⟨_, hmem⟩ := kalloc_none hfail
    rw [hmem]
    exact hbefore

theorem inv_userinit (hnodup : m.freelist.Nodup) (hzero : ∀ q, m.counters q = 0)
    (hvalid : ∀ q ∈ m.freelist, valid q) (h : userinit m init = some s) :
    Inv effective valid s := by
  obtain ⟨c, d', ⟨s1, d, m1, q, halloc, hq, hsetup, hinit, hself⟩, hothers, _⟩ := userinit_boots h
  have h1 := inv_allocproc (inv_emptyTable hnodup hvalid) halloc
  have hcounters : ∀ r, m1.counters r = 0 := by
    obtain ⟨rest, _, hmem⟩ := kalloc_some hq
    intro r
    rw [counters_setupkvm hsetup, hmem]
    exact hzero r
  obtain ⟨hwf, hbooks⟩ :=
    books_inituvm (fresh_setupkvm hsetup) hcounters (books_setupkvm h1.books hsetup) hinit
  obtain ⟨_, hrest, hpgdir, _, q', hq', hstack⟩ := allocproc_some (inv_emptyTable hnodup hvalid)
    halloc
  obtain rfl : q = q' := by
    rw [hq] at hq'
    simpa using hq'
  rw [← ownedElse_add s1 c, ← mappedElse_add s1 c, Proc.new_own hpgdir (by rw [hstack]),
    Proc.new_refs hpgdir, add_zero, add_assoc] at hbooks
  have hnew : Inv effective valid { s1.setProc c (s.procs c) with mem := s.mem } := by
    rw [hself]
    refine h1.replace ⟨?_, (by decide : pgsize ≤ kernbase), by simp⟩ ?_
    · intro d1 hd1
      cases hd1
      exact hwf
    · rw [Proc.own_some rfl, Proc.refs_some rfl]
      simpa using hbooks
  have hsame : ∀ x, ({ s1.setProc c (s.procs c) with mem := s.mem } : Machine).procs x =
      s.procs x := by
    intro x
    by_cases hx : x = c
    · simp [hx]
    · simp [hx, hrest x hx, hothers x hx]
  refine hnew.relabel rfl (fun x => ?_) (fun x => ?_)
  · rw [hsame x]
    exact ⟨rfl, rfl, rfl⟩
  · rw [hsame x]
    exact id

end Boot

def smallMem : Mem :=
  ⟨256, List.range' 1024 300, fun _ => 0, fun _ => zeroPage, false⟩

end Xv6.Vm
