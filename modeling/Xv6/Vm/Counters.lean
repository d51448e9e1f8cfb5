import Xv6.Lib.Transition
import Xv6.Vm.Calm

/-! `page_counters` is exact: while no `kalloc` fails and address spaces only
grow, are copied, are shared and are reaped by `cow_wait`, the counter of a
mapped page is the number of its mappings. -/
namespace Xv6.Vm
open Ledger Transition

/-- The present entry of page `v` in the directory of process `p`. -/
def Machine.entry (s : Machine) (p : Slot) (v : Nat) : Option Pte :=
  (s.procs p).pgdir.bind fun d => d.present v

/-- The counter of a mapped page is the number of entries that point to it, a
writable entry is the only one, and an entry has one of `PTE_W` and `PTE_SH`. -/
structure CountersExact (s : Machine) : Prop where
  exact : ∀ q, 0 < s.mapped q → s.mem.counters q = s.mapped q
  writable : ∀ p v pte, s.entry p v = some pte → pte.flags.w = true →
    s.mem.counters pte.ppn = 1
  exclusive : ∀ p v pte, s.entry p v = some pte → pte.flags.w = !pte.flags.sh

/-- A page that was mapped is free after the step when its last mapping is
gone, and only then. -/
def FreedExactly (s : Machine) (_ : Slot × Act) (next : Machine) : Prop :=
  ∀ q, 0 < s.mapped q → (q ∈ next.mem.freelist ↔ next.mapped q = 0)

/-- Processes whose pages are private. Each page has one role: it is free, it
holds a stack or a table, or it is mapped once. The reading of the counters is
`id`, or `effective` for a page whose counter was not set. -/
structure PrivateStart (read : ℤ → ℤ) (s : Machine) : Prop where
  role : ∀ q, s.mem.freelist.count q + s.owned q + s.mapped q ≤ 1
  ok : ∀ p, (s.procs p).Ok
  counter : ∀ q, 0 < s.mapped q → read (s.mem.counters q) = 1
  flags : ∀ p v pte, s.entry p v = some pte → pte.flags.w = true ∧ pte.flags.sh = false

def calmStep (s : Machine) (label : Slot × Act) : Option Machine :=
  (step s label).filter fun next => next.mem.kfailed = false

def CountingAct : Act → Prop
  | .wait => False
  | .exec _ => False
  | .sbrk n => 0 ≤ n
  | _ => True

def Flagged (s : Machine) : Prop :=
  ∀ p v pte, s.entry p v = some pte →
    (pte.flags.w = true → s.mapped pte.ppn = 1) ∧ pte.flags.w = !pte.flags.sh

section

variable {read : ℤ → ℤ} {valid : Nat → Prop} {s s' : Machine} {p : Slot} {v : Nat} {pte : Pte}

theorem entry_eq_some : s.entry p v = some pte ↔
    ∃ d, (s.procs p).pgdir = some d ∧ d.present v = some pte :=
  Option.bind_eq_some_iff

theorem entry_of_dir {d : PageDir} (h : (s.procs p).pgdir = some d) : s.entry p v = d.present
    v := by
  rw [Machine.entry, h, Option.bind_some]

theorem entry_congr (h : (s'.procs p).pgdir = (s.procs p).pgdir) : s'.entry p v = s.entry p v := by
  rw [Machine.entry, h, Machine.entry]

theorem Inv.entry_lt (h : Inv read valid s) (hentry : s.entry p v = some pte) : v < upages := by
  obtain ⟨d, hd, hpresent⟩ := entry_eq_some.mp hentry
  exact wf_present (h.wf p d hd) hpresent

theorem Inv.entry_mapped (h : Inv read valid s) (hentry : s.entry p v = some pte) :
    0 < s.mapped pte.ppn := by
  obtain ⟨d, hd, hpresent⟩ := entry_eq_some.mp hentry
  exact maps_le_mapped hd (h.entry_lt hentry) (maps_eq_some.mpr ⟨pte, hpresent, rfl⟩)

theorem Inv.entry_unique (h : Inv read valid s) {c : Slot} {u : Nat} {pte' : Pte}
    (hone : s.mapped pte.ppn = 1) (hentry : s.entry p v = some pte)
    (hentry' : s.entry c u = some pte') (hppn : pte'.ppn = pte.ppn) : c = p ∧ u = v := by
  obtain ⟨d, hd, hpresent⟩ := entry_eq_some.mp hentry
  obtain ⟨d', hd', hpresent'⟩ := entry_eq_some.mp hentry'
  have hmaps : d.maps v = some pte.ppn := maps_eq_some.mpr ⟨pte, hpresent, rfl⟩
  have hmaps' : d'.maps u = some pte.ppn := maps_eq_some.mpr ⟨pte', hpresent', hppn⟩
  have hv := h.entry_lt hentry
  have hu := h.entry_lt hentry'
  have hpos : 0 < (s.procs p).refs pte.ppn := by
    rw [Proc.refs_some hd]
    exact refs_pos.mpr ⟨v, hv, hmaps⟩
  have hpos' : 0 < (s.procs c).refs pte.ppn := by
    rw [Proc.refs_some hd']
    exact refs_pos.mpr ⟨u, hu, hmaps'⟩
  have hcp : c = p := sum_unique hone hpos' hpos
  subst hcp
  rw [hd] at hd'
  cases hd'
  refine ⟨rfl, tally_unique (n := upages) ?_ hu hv hmaps' hmaps⟩
  have hle := refs_le_mapped s c pte.ppn
  rw [Proc.refs_some hd] at hle hpos
  rw [hone] at hle
  exact le_antisymm hle hpos

theorem Flagged.of_entries (hs : Flagged s) (h' : Inv read valid s')
    (hentry : ∀ p v pte, s'.entry p v = some pte →
      (s.entry p v = some pte ∧ (pte.flags.w = true → s'.mapped pte.ppn ≤ s.mapped pte.ppn)) ∨
      ((pte.flags.w = true → s'.mapped pte.ppn = 1) ∧ pte.flags.w = !pte.flags.sh)) :
    Flagged s' := by
  intro p v pte hnew
  rcases hentry p v pte hnew with ⟨hold, hle⟩ | hnew
  · obtain ⟨hone, hexclusive⟩ := hs p v pte hold
    refine ⟨fun hw => ?_, hexclusive⟩
    have := hle hw
    have := hone hw
    have := h'.entry_mapped hnew
    omega
  · exact hnew

end

variable {m : Mem}

section

variable {read : ℤ → ℤ} {valid : Nat → Prop} {s s' : Machine} {p c : Slot}

theorem Born.entry {src src' d : PageDir} (h : Born s p c src src' d s') {x : Slot} {v : Nat}
    {pte : Pte} (hentry : s'.entry x v = some pte) :
    (x = c ∧ d.present v = some pte) ∨ (x = p ∧ src'.present v = some pte) ∨
      (x ≠ p ∧ s.entry x v = some pte) := by
  by_cases hxc : x = c
  · obtain ⟨q, hchild⟩ := h.child
    subst hxc
    rw [entry_of_dir (d := d) (by rw [hchild])] at hentry
    exact Or.inl ⟨rfl, hentry⟩
  · by_cases hxp : x = p
    · subst hxp
      rw [entry_of_dir (d := src') (by rw [h.parent])] at hentry
      exact Or.inr (Or.inl ⟨rfl, hentry⟩)
    · rw [entry_congr (s := s) (by rw [h.others x hxp hxc])] at hentry
      exact Or.inr (Or.inr ⟨hxp, hentry⟩)

theorem flagged_copied [Reading read] {src d : PageDir} (hs : Flagged s) (h : Inv read valid s)
    (h' : Inv read valid s') (hborn : Born s p c src src d s')
    (hcopied : Copied s.mem src d (pages (s.procs p).sz) s'.mem) : Flagged s' := by
  have hold : ∀ x v pte, s.entry x v = some pte → s'.mapped pte.ppn ≤ s.mapped pte.ppn := by
    intro x v pte hentry
    have hfree := h.books.not_free_of_shared (h.entry_mapped hentry)
    rw [hborn.mapped rfl, hcopied.refs _ hfree, Nat.add_zero]
  refine hs.of_entries h' ?_
  intro x v pte hentry
  rcases hborn.entry hentry with ⟨rfl, hd⟩ | ⟨rfl, hsrc⟩ | ⟨_, hother⟩
  · right
    have hv : v < pages (s.procs p).sz := by
      by_contra hv
      rw [hcopied.above v (by omega)] at hd
      cases hd
    obtain ⟨pte', q, hpte', _, hd', _⟩ := hcopied.entry v hv
    rw [hd'] at hd
    cases hd
    refine ⟨fun _ => ?_, (hs p v pte' (by rwa [entry_of_dir hborn.dir])).2⟩
    have hsingle := hcopied.single h.books v (Nat.zero_le v) (h'.entry_lt hentry) q
      (maps_eq_some.mpr ⟨_, hd', rfl⟩)
    rw [hborn.mapped rfl]
    exact hsingle
  · rw [← entry_of_dir hborn.dir] at hsrc
    exact Or.inl ⟨hsrc, fun _ => hold _ v pte hsrc⟩
  · exact Or.inl ⟨hother, fun _ => hold x v pte hother⟩

theorem flagged_shared {src src' d : PageDir} (hs : Flagged s) (h : Inv read valid s)
    (h' : Inv read valid s') (hborn : Born s p c src src' d s') (hrefs : src'.refs = src.refs)
    (hshared : Shared src src' d (pages (s.procs p).sz)) : Flagged s' := by
  have hmark : ∀ v pte, v < pages (s.procs p).sz →
      src'.present v = some pte ∨ d.present v = some pte →
      pte.flags.w = false ∧ pte.flags.sh = true := by
    intro v pte hv hentry
    obtain ⟨pte', _, hsrc', hd⟩ := hshared.entry v hv
    rw [hsrc', hd, or_self] at hentry
    cases hentry
    exact ⟨rfl, rfl⟩
  -- a writable page is mapped once, so not by an entry that is shared now
  have hold : ∀ x v pte, s.entry x v = some pte → (x = p → pages (s.procs p).sz ≤ v) →
      pte.flags.w = true → s'.mapped pte.ppn ≤ s.mapped pte.ppn := by
    intro x v pte hentry hplace hw
    rw [hborn.mapped hrefs, hshared.refs, Nat.add_zero]
    intro u hu hmaps
    obtain ⟨pte', hpte', hppn⟩ := maps_eq_some.mp hmaps
    rw [← entry_of_dir hborn.dir] at hpte'
    obtain ⟨rfl, rfl⟩ := h.entry_unique ((hs x v pte hentry).1 hw) hentry hpte' hppn
    have := hplace rfl
    omega
  refine hs.of_entries h' ?_
  intro x v pte hentry
  by_cases hv : v < pages (s.procs p).sz
  · rcases hborn.entry hentry with ⟨_, hd⟩ | ⟨_, hsrc⟩ | ⟨hx, hother⟩
    · obtain ⟨hw, hsh⟩ := hmark v pte hv (Or.inr hd)
      exact Or.inr (by simp [hw, hsh])
    · obtain ⟨hw, hsh⟩ := hmark v pte hv (Or.inl hsrc)
      exact Or.inr (by simp [hw, hsh])
    · exact Or.inl ⟨hother, hold x v pte hother (fun heq => absurd heq hx)⟩
  · obtain ⟨hsrc', hd'⟩ := hshared.above v (by omega)
    rcases hborn.entry hentry with ⟨_, hd⟩ | ⟨rfl, hsrc⟩ | ⟨hx, hother⟩
    · rw [hd'] at hd
      cases hd
    · rw [hsrc', ← entry_of_dir hborn.dir] at hsrc
      exact Or.inl ⟨hsrc, hold _ v pte hsrc (fun _ => by omega)⟩
    · exact Or.inl ⟨hother, hold x v pte hother (fun heq => absurd heq hx)⟩

structure NewDir (s : Machine) (p : Slot) (d d' : PageDir) (s' : Machine) : Prop where
  dir : (s.procs p).pgdir = some d
  dir' : (s'.procs p).pgdir = some d'
  others : ∀ y, y ≠ p → (s'.procs y).pgdir = (s.procs y).pgdir

theorem newDir_setProc {d d' : PageDir} {x : Proc} (hd : (s.procs p).pgdir = some d)
    (hx : x.pgdir = some d') : NewDir s p d d' { s.setProc p x with mem := m } where
  dir := hd
  dir' := by simpa [Machine.setProc] using hx
  others := by
    intro y hy
    simp [Machine.setProc, hy]

theorem NewDir.entry {d d' : PageDir} (h : NewDir s p d d' s') {y : Slot} {v : Nat} {pte : Pte}
    (hentry : s'.entry y v = some pte) :
    (y = p ∧ d'.present v = some pte) ∨ (y ≠ p ∧ s.entry y v = some pte) := by
  by_cases hyp : y = p
  · subst hyp
    rw [entry_of_dir h.dir'] at hentry
    exact Or.inl ⟨rfl, hentry⟩
  · rw [entry_congr (h.others y hyp)] at hentry
    exact Or.inr ⟨hyp, hentry⟩

theorem NewDir.mapped {d d' : PageDir} (h : NewDir s p d d' s') (q : Nat) :
    s'.mapped q + d.refs q = s.mapped q + d'.refs q := by
  have hset := mapped_setProc s p (s'.procs p) q
  rw [Proc.refs_some h.dir, Proc.refs_some h.dir'] at hset
  have hsame : s'.mapped = (s.setProc p (s'.procs p)).mapped := by
    refine mapped_congr fun y => ?_
    by_cases hyp : y = p
    · rw [hyp, setProc_self]
    · rw [setProc_of_ne s _ hyp, h.others y hyp]
  rw [hsame]
  exact hset

theorem flagged_grown [Reading read] {d d' : PageDir} {hi : Nat} (hs : Flagged s)
    (h : Inv read valid s) (h' : Inv read valid s') (hdir : NewDir s p d d' s')
    (hgrown : Grown s.mem d (pages (s.procs p).sz) hi d' s'.mem) : Flagged s' := by
  have hold : ∀ y v pte, s.entry y v = some pte → s'.mapped pte.ppn ≤ s.mapped pte.ppn := by
    intro y v pte hentry
    have hmapped := hdir.mapped pte.ppn
    rw [hgrown.refs _ (h.books.not_free_of_shared (h.entry_mapped hentry))] at hmapped
    omega
  refine hs.of_entries h' ?_
  intro y v pte hentry
  rcases hdir.entry hentry with ⟨rfl, hpresent⟩ | ⟨_, hother⟩
  · by_cases hv : pages (s.procs y).sz ≤ v ∧ v < hi
    · obtain ⟨_, q, _, hnew, _⟩ := hgrown.entry v hv.1 hv.2
      have hsingle := hgrown.single (h.books_dir hdir.dir) v hv.1 hv.2 q
        (maps_eq_some.mpr ⟨_, hnew, rfl⟩)
      rw [hnew] at hpresent
      cases hpresent
      refine Or.inr ⟨fun _ => ?_, rfl⟩
      have hmapped := hdir.mapped q
      rw [← mappedElse_dir hdir.dir] at hmapped
      simp only [Pi.add_apply] at hsingle hmapped ⊢
      omega
    · rw [hgrown.outside v (by omega), ← entry_of_dir hdir.dir] at hpresent
      exact Or.inl ⟨hpresent, fun _ => hold _ v pte hpresent⟩
  · exact Or.inl ⟨hother, fun _ => hold y v pte hother⟩

theorem NewDir.unshares_mapped {d d' : PageDir} {v : Nat} {pte : Pte} (h : Inv read valid s)
    (hdir : NewDir s p d d' s') (hfault : Unshares s d v pte d' s'.mem) {r : Nat}
    (hr : 0 < s.mapped r) : 0 < s'.mapped r ∧ s'.mapped r ≤ s.mapped r := by
  have hmapped := hdir.mapped r
  have hv := wf_present (h.wf p d hdir.dir) hfault.entry
  rcases hfault.moved with ⟨q, hq, hmany, hentry, _⟩ | ⟨_, hentry, _⟩
  · have hrefs := congrFun (refs_moved hv hfault.entry hentry hfault.others) r
    have hne : r ≠ q := by
      rintro rfl
      exact h.books.not_free_of_shared hr hq
    simp only [Pi.add_apply, Pi.single_apply, if_neg hne] at hrefs
    split_ifs at hrefs with hrp
    · subst hrp
      omega
    · omega
  · have hrefs := congrFun (refs_moved hv hfault.entry hentry hfault.others) r
    simp only [Pi.add_apply, Pte.unshare] at hrefs
    omega

theorem flagged_fault {d d' : PageDir} {v : Nat} {pte : Pte} (hs : Flagged s) (h : Inv read valid s)
    (h' : Inv read valid s') (hdir : NewDir s p d d' s') (hfault : Unshares s d v pte d' s'.mem) :
    Flagged s' := by
  have hkeep : ∀ y u pte, s.entry y u = some pte → s'.mapped pte.ppn ≤ s.mapped pte.ppn :=
    fun y u pte hentry => (hdir.unshares_mapped h hfault (h.entry_mapped hentry)).2
  refine hs.of_entries h' ?_
  intro y u new hnew
  rcases hdir.entry hnew with ⟨rfl, hpresent⟩ | ⟨_, hother⟩
  · by_cases huv : u = v
    · subst huv
      refine Or.inr ?_
      have hv := h'.entry_lt hnew
      rcases hfault.moved with ⟨q, hq, _, hentry, _⟩ | ⟨hone, hentry, _⟩
      · have hmapped := hdir.mapped q
        rw [hentry] at hpresent
        cases hpresent
        refine ⟨fun _ => ?_, rfl⟩
        have hfree : s.mapped q = 0 := by
          by_contra hne
          exact h.books.not_free_of_shared (Nat.pos_of_ne_zero hne) hq
        have hold : q ≠ pte.ppn := by
          rintro rfl
          have := h.entry_mapped (by rw [entry_of_dir hdir.dir, hfault.entry])
          omega
        have hrefs : d'.refs q = d.refs q + 1 := by
          simpa [Pi.single_apply, hold] using
            congrFun (refs_moved hv hfault.entry hentry hfault.others) q
        simp only
        omega
      · rw [hentry] at hpresent
        cases hpresent
        refine ⟨fun _ => ?_, rfl⟩
        have hle := hkeep y u pte (by rw [entry_of_dir hdir.dir, hfault.entry])
        have hpos := h'.entry_mapped hnew
        simp only [Pte.unshare] at hpos ⊢
        omega
    · rw [hfault.others u huv, ← entry_of_dir hdir.dir] at hpresent
      exact Or.inl ⟨hpresent, fun _ => hkeep _ u new hpresent⟩
  · exact Or.inl ⟨hother, fun _ => hkeep y u new hother⟩

theorem flagged_congr (hs : Flagged s) (h : ∀ c, (s'.procs c).pgdir = (s.procs c).pgdir) :
    Flagged s' := by
  intro y v pte hentry
  rw [entry_congr (h y)] at hentry
  rw [mapped_congr h]
  exact hs y v pte hentry

theorem flagged_reaped (hs : Flagged s) (h' : Inv read valid s') {x : Proc}
    (hx : x.pgdir = none) (hs' : s' = { s.setProc c x with mem := m }) : Flagged s' := by
  refine hs.of_entries h' ?_
  intro y v pte hentry
  have hyc : y ≠ c := by
    rintro rfl
    simp [hs', Machine.entry, Machine.setProc, hx] at hentry
  rw [entry_congr (s := s) (by simp [hs', Machine.setProc, hyc])] at hentry
  refine Or.inl ⟨hentry, fun _ => ?_⟩
  have hset := mapped_setProc s c x pte.ppn
  rw [Proc.new_refs hx, Pi.zero_apply] at hset
  have hmapped : s'.mapped = (s.setProc c x).mapped := by rw [hs']; rfl
  rw [hmapped]
  omega

end

section Runs

variable {read : ℤ → ℤ} {valid : Nat → Prop} {s next : Machine} {p : Slot} {a : Act} {out : Outcome}

variable {label : Slot × Act}

theorem freedExactly_of_mapped (h' : Inv id valid next)
    (hkeep : ∀ q, 0 < s.mapped q → 0 < next.mapped q) : FreedExactly s label next := by
  intro q hq
  have hpos := hkeep q hq
  constructor
  · intro hfree
    exact absurd hfree (h'.books.not_free_of_shared hpos)
  · intro hzero
    omega

/-- What every step gives: the invariant, the flags and the freed pages. -/
structure Counted (valid : Nat → Prop) (s : Machine) (label : Slot × Act) (next : Machine) : Prop
    where
  inv : Inv id valid next
  flagged : Flagged next
  freed : FreedExactly s label next

theorem Counted.of_pgdir (hs : Flagged s) (h' : Inv id valid next)
    (hsame : ∀ c, (next.procs c).pgdir = (s.procs c).pgdir) : Counted valid s label next :=
  ⟨h', flagged_congr hs hsame,
    freedExactly_of_mapped h' fun q hq => by rwa [mapped_congr hsame]⟩

section

variable (h : Inv id valid s) (hs : Flagged s)
include h hs

theorem counted_fork (hp : (s.procs p).state = .runnable)
    (hfork : fork s p = some (next, out)) (hcalm : next.mem.kfailed = false) :
    Counted valid s (p, .fork) next := by
  have h' := inv_fork h hp hfork
  rcases fork_calm h hp hfork hcalm with ⟨rfl, _⟩ | ⟨c, src, d, _, hborn, hcopied⟩
  · exact Counted.of_pgdir hs h fun _ => rfl
  · refine ⟨h', flagged_copied hs h h' hborn hcopied, freedExactly_of_mapped h' ?_⟩
    intro q hq
    rw [hborn.mapped rfl]
    omega

theorem counted_cowFork (hp : (s.procs p).state = .runnable)
    (hfork : cowFork s p = some (next, out)) (hcalm : next.mem.kfailed = false) :
    Counted valid s (p, .cowFork) next := by
  have h' := inv_cowFork h hp (fun hfailed => by simp [hcalm] at hfailed) hfork
  rcases cowFork_calm h hp hfork hcalm with ⟨rfl, _⟩ | ⟨c, src, src', d, _, hborn, hrefs, hshared⟩
  · exact Counted.of_pgdir hs h fun _ => rfl
  · refine ⟨h', flagged_shared hs h h' hborn hrefs hshared, freedExactly_of_mapped h' ?_⟩
    intro q hq
    rw [hborn.mapped hrefs]
    omega

theorem counted_sbrk {n : Int} (hn : 0 ≤ n)
    (hcall : growproc s p n = some (next, out)) (hcalm : next.mem.kfailed = false) :
    Counted valid s (p, .sbrk n) next := by
  have h' := inv_growproc h (fun _ hfailed => by simp [hcalm] at hfailed)
    (fun hneg => absurd hneg (by omega)) hcall
  obtain ⟨d, d', hd, _, hnext, hgrown⟩ := growproc_calm h hn hcall hcalm
  have hdir : NewDir s p d d' next := by
    rw [hnext]
    exact newDir_setProc hd rfl
  refine ⟨h', flagged_grown hs h h' hdir hgrown, freedExactly_of_mapped h' ?_⟩
  intro q hq
  have hmapped := hdir.mapped q
  rw [hgrown.refs q (h.books.not_free_of_shared hq)] at hmapped
  omega

theorem counted_pgfault {va : Nat}
    (hfault : pgfault s p va = some (next, out)) (hcalm : next.mem.kfailed = false) :
    Counted valid s (p, a) next := by
  have h' := inv_pgfault h hfault
  obtain ⟨d, ok, d', m, hd, hcopy, ⟨rfl, _, rfl⟩ | ⟨_, rfl, _⟩⟩ := pgfault_cases hfault
  · obtain ⟨pte, hunshares⟩ := (cowCopyuvm_copies hcopy).unshares h hd
    have hdir : NewDir s p d d' { s.setDir p d' with mem := m } := newDir_setProc hd rfl
    refine ⟨h', flagged_fault hs h h' hdir hunshares, freedExactly_of_mapped h' ?_⟩
    exact fun q hq => (hdir.unshares_mapped h hunshares hq).1
  · exact Counted.of_pgdir hs h' (pgfault_killed_dirs hfault hcalm)

theorem counted_cowWait
    (hwait : cowWait s p = some (next, out)) : Counted valid s (p, .cowWait) next := by
  have h' := inv_cowWait h hwait
  rcases waitWith_cases hwait with ⟨_, rfl, _⟩ |
    ⟨c, q, d, m1, m2, _, _, hkstack, hpgdir, hm1, hm2, hnext⟩
  · exact Counted.of_pgdir hs h fun _ => rfl
  · refine ⟨h', flagged_reaped hs h' rfl hnext, ?_⟩
    have hmapped : next.mapped = s.mappedElse c := by
      rw [hnext]
      have hreplace := mapped_replace s c { s.procs c with
        kstack := none, pgdir := none, state := .unused, parent := none, killed := false }
      rw [Proc.new_refs rfl, add_zero] at hreplace
      exact hreplace
    intro r hr
    constructor
    · intro hfree
      by_contra hne
      exact h'.books.not_free_of_shared (Nat.pos_of_ne_zero hne) hfree
    · intro hzero
      rw [hmapped] at hzero
      rw [hnext]
      refine cowFreevm_freed (h.books_reaped hkstack hpgdir hm1) ?_ hzero hm2
      rw [← mappedElse_dir hpgdir, Pi.add_apply, hzero] at hr
      omega

theorem counted_step (hact : CountingAct label.2) (hstep : calmStep s label = some next) :
    Counted valid s label next := by
  obtain ⟨p, a⟩ := label
  obtain ⟨hstep, hcalm⟩ := Option.filter_eq_some_iff.mp hstep
  have hcalm : next.mem.kfailed = false := by simpa using hcalm
  obtain ⟨hstate, out, hact'⟩ := step_cases hstep
  cases a with
  | fork => exact counted_fork h hs hstate hact' hcalm
  | cowFork => exact counted_cowFork h hs hstate hact' hcalm
  | exit =>
    obtain ⟨s1, hexit, hresult⟩ := Option.map_eq_some_iff.mp hact'
    cases hresult
    exact Counted.of_pgdir hs (inv_exit h hexit) (exit_pgdir hexit)
  | wait => exact hact.elim
  | cowWait => exact counted_cowWait h hs hact'
  | exec img => exact hact.elim
  | sbrk n => exact counted_sbrk h hs hact hact' hcalm
  | load va =>
    rcases load_cases hact' with ⟨_, _, _, _, _, rfl, _⟩ | ⟨_, hfault⟩
    · exact Counted.of_pgdir hs h fun _ => rfl
    · exact counted_pgfault h hs hfault hcalm
  | store va byte =>
    rcases store_cases hact' with ⟨_, _, _, _, _, _, _, rfl⟩ | ⟨_, hfault⟩
    · exact Counted.of_pgdir hs (h.withMem h.books) fun _ => rfl
    · exact counted_pgfault h hs hfault hcalm

end

theorem PrivateStart.inv (h : PrivateStart read s)
    (hvalid : ∀ q, 0 < s.mem.freelist.count q + s.owned q + s.mapped q → valid q) :
    Inv read valid s := by
  refine Inv.of_ok ⟨?_, ?_, hvalid⟩ h.ok
  · intro q
    have := h.role q
    omega
  · intro q hq
    have := h.role q
    rw [h.counter q hq]
    omega

theorem PrivateStart.flagged (h : PrivateStart read s) : Flagged s := by
  have hinv : Inv read (fun _ => True) s := h.inv fun _ _ => trivial
  intro p v pte hentry
  obtain ⟨hw, hsh⟩ := h.flags p v pte hentry
  refine ⟨fun _ => ?_, by simp [hw, hsh]⟩
  have := h.role pte.ppn
  have := hinv.entry_mapped hentry
  omega

theorem countersExact_of_inv (h : Inv id valid s) (hs : Flagged s) : CountersExact s where
  exact := h.books.exact
  writable := by
    intro p v pte hentry hw
    have hone := (hs p v pte hentry).1 hw
    have hexact := h.books.exact pte.ppn (h.entry_mapped hentry)
    rw [hone] at hexact
    exact hexact
  exclusive := fun p v pte hentry => (hs p v pte hentry).2

end Runs

/-- Exactness of `page_counters`: in every run from private pages in which no
`kalloc` fails the counters and flags are right in every state, and in every
step a page becomes free exactly when it loses its last mapping. -/
theorem page_counters_exact {start final : Machine} {labels : List (Slot × Act)}
    (hstart : PrivateStart id start) (hacts : ∀ label ∈ labels, CountingAct label.2)
    (hrun : run calmStep start labels = some final) :
    CountersExact final ∧ Along calmStep FreedExactly start labels := by
  have hmeets : Meets calmStep (fun _ label => CountingAct label.2) start labels :=
    meets_of_forall (fun label hmem _ => hacts label hmem) start
  have hinv : Inv id (fun _ => True) start ∧ Flagged start :=
    ⟨hstart.inv fun _ _ => trivial, hstart.flagged⟩
  have hstep : ∀ s label next, Inv id (fun _ => True) s ∧ Flagged s → CountingAct label.2 →
      calmStep s label = some next →
      (Inv id (fun _ => True) next ∧ Flagged next) ∧ FreedExactly s label next := by
    intro s label next h hact hnext
    have hcounted := counted_step h.1 h.2 hact hnext
    exact ⟨⟨hcounted.inv, hcounted.flagged⟩, hcounted.freed⟩
  obtain ⟨hfinal, hflags⟩ :=
    run_invariant (fun s label next h hact hnext => (hstep s label next h hact hnext).1) hinv
      hmeets hrun
  exact ⟨countersExact_of_inv hfinal hflags, along_of_invariant hstep hinv hmeets⟩

theorem userinit_entry {init : Page} {s : Machine} (h : userinit m init = some s)
    {p : Slot} {v : Nat} {pte : Pte} (hentry : s.entry p v = some pte) :
    pte.flags = userFlags := by
  obtain ⟨c, d', ⟨s1, d, m1, q, _, _, hsetup, hinit, hself⟩, hothers, _⟩ := userinit_boots h
  have hfresh := fresh_setupkvm hsetup
  have hpc : p = c := by
    by_contra hpc
    simp [Machine.entry, hothers p hpc] at hentry
  rw [entry_of_dir (d := d') (by rw [hpc, hself])] at hentry
  obtain ⟨q', m2, _, hinstall | ⟨rfl, _⟩⟩ := inituvm_cases hinit
  · by_cases hv : v = 0
    · rw [hv, hinstall.entry] at hentry
      cases hentry
      rfl
    · rw [hinstall.others v hv, hfresh.present] at hentry
      cases hentry
  · rw [hfresh.present] at hentry
    cases hentry

theorem privateStart_userinit {init : Page} {s : Machine} (hnodup : m.freelist.Nodup)
    (hzero : ∀ q, m.counters q = 0) (h : userinit m init = some s) :
    PrivateStart effective s := by
  have hinv : Inv effective (fun _ => True) s :=
    inv_userinit hnodup hzero (fun _ _ => trivial) h
  have hcounter : ∀ q, effective (s.mem.counters q) = 1 := by
    intro q
    rw [userinit_counters h, hzero]
    rfl
  refine ⟨?_, hinv.ok, fun q _ => hcounter q, ?_⟩
  · intro q
    have honce := hinv.books.once q
    have hexact := hinv.books.exact q
    rw [hcounter] at hexact
    omega
  · intro p v pte hentry
    rw [userinit_entry h hentry]
    exact ⟨rfl, rfl⟩

theorem PrivateStart.counted {read : ℤ → ℤ} {s : Machine} (h : PrivateStart read s) :
    PrivateStart id { s with mem := { s.mem with counters := fun _ => 1 } } where
  role := h.role
  ok := h.ok
  counter := fun _ _ => rfl
  flags := h.flags

/-- The first process shares its page, the child writes, grows and exits. -/
def sharedGrownReaped : List (Slot × Act) :=
  [(slot0, .cowFork), (slot1, .store 7 65), (slot1, .sbrk 4096), (slot1, .store 7 65),
  (slot1, .fork), (slot1, .exit),
    (slot0, .cowWait)]

theorem page_counters_exact_shared_grown_reaped :
    ∃ start final, PrivateStart id start ∧ run calmStep start sharedGrownReaped = some final ∧
      CountersExact final ∧ Along calmStep FreedExactly start sharedGrownReaped := by
  obtain ⟨boot, hboot⟩ := Option.isSome_iff_exists.mp
    (show (userinit smallMem zeroPage).isSome by decide +kernel)
  have hrun : ((userinit smallMem zeroPage).bind fun s =>
      run calmStep { s with mem := { s.mem with counters := fun _ => 1 } }
        sharedGrownReaped).isSome := by
    decide +kernel
  rw [hboot, Option.bind_some] at hrun
  obtain ⟨final, hfinal⟩ := Option.isSome_iff_exists.mp hrun
  have hstart := (privateStart_userinit List.nodup_range' (fun _ => rfl) hboot).counted
  refine ⟨_, final, hstart, hfinal, page_counters_exact hstart ?_ hfinal⟩
  simp [sharedGrownReaped, CountingAct]

end Xv6.Vm
