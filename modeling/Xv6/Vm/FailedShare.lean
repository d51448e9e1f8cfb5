import Xv6.Vm.CowSafety
import Xv6.Vm.EagerFork

/-! A `cow_fork` that runs out of memory. When the first page table of the child
cannot be allocated nothing has been shared yet; when a later one cannot,
`freevm` gives the parent's own pages to the allocator. -/
namespace Xv6.Vm
open Ledger Transition Simulation

def perform (s : Machine) (label : Slot × Act) : Option (Machine × Outcome) :=
  match stepOut s label with
  | some (s', .retry) => stepOut s' label
  | result => result

def program (p : Slot) (accesses : List Act) : List (Slot × Act) :=
  accesses.map fun a => (p, a)

def AccessBelow (sz : Nat) : Act → Prop
  | .load va => va < sz
  | .store va _ => va < sz
  | _ => False

/-- The handler for a fault at `va` finds a free page if it needs one. -/
def FaultRoom (s : Machine) (p : Slot) (va : Nat) : Prop :=
  ∀ pte, s.entry p (va / pgsize) = some pte → pte.flags.sh = true →
    1 < s.mem.counters pte.ppn → s.mem.freelist ≠ []

/-- If the access has to copy a shared page, there is a free one. -/
def PageLeft (s : Machine) : Slot × Act → Prop
  | (p, .load va) =>
    (∀ pte, s.entry p (va / pgsize) = some pte → pte.flags.u = false) → FaultRoom s p va
  | (p, .store va _) => FaultRoom s p va
  | _ => True

instance (s : Machine) (p : Slot) (va : Nat) : Decidable (FaultRoom s p va) :=
  inferInstanceAs (Decidable (∀ pte ∈ s.entry p (va / pgsize), pte.flags.sh = true →
    1 < s.mem.counters pte.ppn → s.mem.freelist ≠ []))

instance (s : Machine) (label : Slot × Act) : Decidable (PageLeft s label) :=
  match label with
  | (p, .load va) =>
    inferInstanceAs (Decidable ((∀ pte ∈ s.entry p (va / pgsize), pte.flags.u = false) →
      FaultRoom s p va))
  | (p, .store va _) => inferInstanceAs (Decidable (FaultRoom s p va))
  | (_, .fork) | (_, .cowFork) | (_, .exit) | (_, .wait) | (_, .cowWait) | (_, .sbrk _)
  | (_, .exec _) => inferInstanceAs (Decidable True)

variable {m' : Mem} {d : PageDir}

section

variable {kend : Nat} {s s' : Machine} {p : Slot} {a : Act} {out : Outcome} {va : Nat}

theorem AccessBelow.cases {sz : Nat} (h : AccessBelow sz a) :
    (∃ va, a = .load va ∧ va < sz) ∨ ∃ va byte, a = .store va byte ∧ va < sz := by
  cases a with
  | load va => exact Or.inl ⟨va, rfl, h⟩
  | store va byte => exact Or.inr ⟨va, byte, rfl, h⟩
  | _ => exact h.elim

theorem AccessBelow.guard (h : AccessBelow (s.procs p).sz a) : ForkGuard s (p, a) := by
  obtain ⟨va, rfl, hva⟩ | ⟨va, byte, rfl, hva⟩ := h.cases
  · exact hva
  · exact hva

theorem access_settled (h : Sound kend s) (hsettled : Settled p (va / pgsize) s)
    (haccess : a = .load va ∨ ∃ byte, a = .store va byte)
    (hstep : stepOut s (p, a) = some (s', out)) (hguard : ForkGuard s (p, a)) : out ≠ .retry := by
  rintro rfl
  obtain ⟨va', haccess', hfault⟩ := retry_cases hguard hstep
  have hva : va' = va := by
    rcases haccess with rfl | ⟨byte, rfl⟩
    · rcases haccess' with hload | ⟨_, hstore⟩
      · cases hload
        rfl
      · cases hstore
    · rcases haccess' with hload | ⟨_, hstore⟩
      · cases hload
      · cases hstore
        rfl
  subst hva
  exact settled_no_retry h hsettled hfault

theorem AccessBelow.retried (hbelow : AccessBelow (s.procs p).sz a) (h : Sound kend s)
    (hfirst : stepOut s (p, a) = some (s', .retry)) :
    Sound kend s' ∧ s'.users = s.users ∧ AccessBelow (s'.procs p).sz a ∧
      ∃ va, (a = .load va ∨ ∃ byte, a = .store va byte) ∧ Settled p (va / pgsize) s' := by
  obtain ⟨va, haccess, hfault⟩ := retry_cases hbelow.guard hfirst
  obtain ⟨hsound, husers⟩ := retry_users h hfault
  have hsz : (s'.procs p).sz = (s.procs p).sz := congrArg (fun u => (u.procs p).sz) husers
  have hlive := (Option.ite_none_right_eq_some.mp hfirst).1
  exact ⟨hsound, husers, by rwa [hsz], va, haccess, retry_settles h hlive hfault⟩

theorem perform_users (h : Sound kend s) (hbelow : AccessBelow (s.procs p).sz a)
    (hperform : perform s (p, a) = some (s', out)) (hcalm : s'.mem.kfailed = false) :
    Sound kend s' ∧ s.users.step (p, a) = some (s'.users, out) := by
  have heager : a.eager = a := by
    obtain ⟨va, rfl, _⟩ | ⟨va, byte, rfl, _⟩ := hbelow.cases <;> rfl
  have hvisible : ∀ {s1 s2 : Machine} {out : Outcome}, Sound kend s1 → ForkGuard s1 (p, a) →
      stepOut s1 (p, a) = some (s2, out) → out ≠ .retry → s2.mem.kfailed = false →
      Sound kend s2 ∧ s1.users.step (p, a) = some (s2.users, out) := by
    intro s1 s2 out1 hsound hguard hstep hne hcalm
    obtain ⟨hsound', hfollows⟩ := step_users hsound hguard hstep hcalm
    rw [seen_of_ne hne, heager] at hfollows
    exact ⟨hsound', hfollows⟩
  unfold perform at hperform
  split at hperform
  · rename_i s1 hfirst
    obtain ⟨hsound, husers, hbelow', va, haccess, hsettled⟩ := hbelow.retried h hfirst
    have hne := access_settled hsound hsettled haccess hperform hbelow'.guard
    rw [← husers]
    exact hvisible hsound hbelow'.guard hperform hne hcalm
  · rename_i hnot
    refine hvisible h hbelow.guard hperform (fun hretry => ?_) hcalm
    subst hretry
    exact hnot s' hperform

theorem cowCopyuvm_kfailed {m : Mem} {d' : PageDir} {sz : Nat} {ok : Bool}
    (hroom : ∀ pte, d.lookup (va / pgsize) = some pte → pte.flags.sh = true →
      1 < m.counters pte.ppn → m.freelist ≠ [])
    (h : cowCopyuvm m d va sz = (ok, d', m')) : m'.kfailed = m.kfailed := by
  unfold cowCopyuvm at h
  split at h
  · cases h
    rfl
  · rename_i pte hlookup
    split at h
    · rename_i hfault
      split at h
      · rename_i hcounter
        split at h
        · rename_i m1 hfail
          exact absurd (kalloc_none hfail).1 (hroom pte hlookup hfault.1 hcounter)
        · rename_i q m1 hq
          cases h
          obtain ⟨rest, _, rfl⟩ := kalloc_some hq
          rfl
      · cases h
        rfl
    · cases h
      rfl

theorem FaultRoom.lookup (h : Sound kend s) (hroom : FaultRoom s p va)
    (hd : (s.procs p).pgdir = some d) :
    ∀ pte, d.lookup (va / pgsize) = some pte → pte.flags.sh = true →
      1 < s.mem.counters pte.ppn → s.mem.freelist ≠ [] := by
  intro pte hlookup hsh
  refine hroom pte ?_ hsh
  rw [entry_of_dir hd, present_of_sh (h.inv.wf p d hd) hlookup hsh]

theorem pgfault_kfailed (h : Sound kend s) (hroom : FaultRoom s p va)
    (hfault : pgfault s p va = some (s', out)) : s'.mem.kfailed = s.mem.kfailed := by
  obtain ⟨d, ok, d', m, hd, hcopy, ⟨_, _, rfl⟩ | ⟨_, _, hexit⟩⟩ := pgfault_cases hfault
  · exact cowCopyuvm_kfailed (hroom.lookup h hd) hcopy
  · rw [(exit_cases hexit).2.1]
    exact cowCopyuvm_kfailed (hroom.lookup h hd) hcopy

theorem access_kfailed (h : Sound kend s) (hroom : PageLeft s (p, a))
    (hbelow : AccessBelow (s.procs p).sz a) (hstep : stepOut s (p, a) = some (s', out)) :
    s'.mem.kfailed = s.mem.kfailed := by
  obtain ⟨_, hact⟩ := Option.ite_none_right_eq_some.mp hstep
  obtain ⟨va, rfl, _⟩ | ⟨va, byte, rfl, _⟩ := hbelow.cases
  · rcases load_cases hact with ⟨_, _, _, _, _, rfl, _⟩ | ⟨hnot, hfault⟩
    · rfl
    · refine pgfault_kfailed h (hroom fun pte hentry => ?_) hfault
      obtain ⟨d, hd, hpte⟩ := entry_eq_some.mp hentry
      exact hnot d pte hd hpte
  · rcases store_cases hact with ⟨_, _, _, _, _, _, _, rfl⟩ | ⟨_, hfault⟩
    · rfl
    · exact pgfault_kfailed h hroom hfault

theorem Settled.pageLeft (h : Settled p (va / pgsize) s)
    (haccess : a = .load va ∨ ∃ byte, a = .store va byte) : PageLeft s (p, a) := by
  have hroom : FaultRoom s p va := by
    intro pte hentry hsh
    rw [h.2 pte hentry] at hsh
    cases hsh
  rcases haccess with rfl | ⟨byte, rfl⟩
  · exact fun _ => hroom
  · exact hroom

theorem perform_kfailed (h : Sound kend s) (hroom : PageLeft s (p, a))
    (hbelow : AccessBelow (s.procs p).sz a) (hperform : perform s (p, a) = some (s', out)) :
    s'.mem.kfailed = s.mem.kfailed := by
  unfold perform at hperform
  split at hperform
  · rename_i s1 hfirst
    obtain ⟨hsound, -, hbelow', va, haccess, hsettled⟩ := hbelow.retried h hfirst
    rw [access_kfailed hsound (hsettled.pageLeft haccess) hbelow' hperform]
    exact access_kfailed h hroom hbelow hfirst
  · exact access_kfailed h hroom hbelow hperform

theorem pgfault_returns (h : Sound kend s) (hroom : FaultRoom s p va)
    (hcalm : s.mem.kfailed = false) (hlive : (s.procs p).state = .runnable)
    (hd : (s.procs p).pgdir = some d) (hva : va < (s.procs p).sz)
    (hmay : p = s.initproc → ∃ pte, d.present (va / pgsize) = some pte ∧ pte.flags.sh = true) :
    ∃ result, pgfault s p va = some result := by
  by_cases hinit : p = s.initproc
  · obtain ⟨pte, hpte, hsh⟩ := hmay hinit
    unfold pgfault
    simp only [hd]
    cases hcopy : cowCopyuvm s.mem d va (s.procs p).sz with
    | mk ok rest =>
      obtain ⟨d', m⟩ := rest
      cases ok with
      | true => exact ⟨_, rfl⟩
      | false =>
        have hm := cowCopyuvm_kfailed (hroom.lookup h hd) hcopy
        have hnot := cowCopyuvm_refused hcopy (hm.trans hcalm) hva hpte
        rw [hsh] at hnot
        cases hnot
  · exact pgfault_total h.toReady hlive hinit

section

variable (h : Sound kend s) (hroom : PageLeft s (p, a)) (hcalm : s.mem.kfailed = false)
  (hbelow : AccessBelow (s.procs p).sz a)
include h hroom hcalm hbelow

theorem access_returns {next : Users}
    (hspec : s.users.step (p, a) = some (next, out)) :
    ∃ result, stepOut s (p, a) = some result := by
  obtain ⟨hlive, hact⟩ := Option.ite_none_right_eq_some.mp hspec
  have hlive : (s.procs p).state = .runnable := hlive
  have hstep : stepOut s (p, a) = act s p a := if_pos hlive
  rw [hstep]
  obtain ⟨d, hd⟩ := h.toReady.dir hlive
  obtain ⟨va, rfl, _⟩ | ⟨va, byte, rfl, hva⟩ := hbelow.cases
  · obtain ⟨_, hload⟩ := Option.ite_none_right_eq_some.mp hact
    exact load_total h hlive hload
  · obtain ⟨_, hstore⟩ := Option.ite_none_right_eq_some.mp hact
    show ∃ result, store s p va byte = some result
    unfold store
    simp only [hd]
    split
    · exact ⟨_, rfl⟩
    · rename_i hnot
      refine pgfault_returns h hroom hcalm hlive hd hva fun hinit => ?_
      unfold Users.store at hstore
      rw [users_kill_none hinit] at hstore
      split at hstore
      · rename_i page hpage
        obtain ⟨⟨q, present, w, u, sh⟩, hpte, hu⟩ := users_page_some hd hpage
        have hflags := (h.flagged p _ _ ((entry_of_dir hd).trans hpte)).2
        obtain ⟨hlookup, hpresent⟩ := present_eq_some.mp hpte
        cases hpresent
        cases hu
        refine ⟨_, hpte, ?_⟩
        cases sh with
        | true => rfl
        | false =>
          have hw : w = true := hflags
          subst hw
          exact absurd hlookup (hnot q false)
      · cases hstore

theorem perform_returns {next : Users}
    (hspec : s.users.step (p, a) = some (next, out)) :
    ∃ result, perform s (p, a) = some result := by
  obtain ⟨⟨s1, out1⟩, hfirst⟩ := access_returns h hroom hcalm hbelow hspec
  unfold perform
  rw [hfirst]
  split
  · rename_i s1' heq
    cases heq
    obtain ⟨hsound, husers, hbelow', va, haccess, hsettled⟩ := hbelow.retried h hfirst
    have hkfailed := access_kfailed h hroom hbelow hfirst
    rw [← husers] at hspec
    exact access_returns hsound (hsettled.pageLeft haccess) (hkfailed.trans hcalm) hbelow' hspec
  · exact ⟨_, rfl⟩

end

end

/-! ### Two machines that look the same to one process -/

/-- The process sees the same, and `init` is the same process. -/
def Agree (p : Slot) (u w : Users) : Prop :=
  u.procs p = w.procs p ∧ u.initproc = w.initproc

section

variable {kend kend' : Nat} {s w final : Machine} {p : Slot} {a : Act} {out : Outcome}

theorem Agree.setProc {u w : Users} {x y : User} (h : Agree p u w) (hxy : x = y) :
    Agree p (u.setProc p x) (w.setProc p y) :=
  ⟨by rw [Users.setProc_self, Users.setProc_self, hxy], h.2⟩

theorem Agree.kill {u w next : Users} (h : Agree p u w) (hkill : u.kill p = some (next, out)) :
    ∃ next', w.kill p = some (next', out) ∧ Agree p next next' ∧
      (next.procs p).sz = (u.procs p).sz := by
  obtain ⟨hproc, hinit⟩ := h
  obtain ⟨u1, hexit, hresult⟩ := Option.map_eq_some_iff.mp hkill
  cases hresult
  unfold Users.exit at hexit
  split at hexit
  · cases hexit
  · rename_i hne
    cases hexit
    have hne' : p ≠ w.initproc := by
      rw [← hinit]
      exact hne
    unfold Users.kill Users.exit
    rw [if_neg (by exact hne')]
    refine ⟨_, rfl, ⟨?_, hinit⟩, ?_⟩
    · simp [Users.adopt, Users.setProc, hproc, hinit]
    · by_cases hparent : (u.procs p).parent = some p <;>
        simp [Users.adopt, Users.setProc, hparent]

theorem Agree.access {u w next : Users} (h : Agree p u w) (hbelow : AccessBelow (u.procs p).sz a)
    (hstep : u.step (p, a) = some (next, out)) :
    ∃ next', w.step (p, a) = some (next', out) ∧ Agree p next next' ∧
      (next.procs p).sz = (u.procs p).sz := by
  obtain ⟨hlive, hact⟩ := Option.ite_none_right_eq_some.mp hstep
  have hpage : ∀ va, w.page p va = u.page p va := by
    intro va
    simp only [Users.page, h.1]
  have hlive' : (w.procs p).state = .runnable := by
    rw [← h.1]
    exact hlive
  have hstep' : w.step (p, a) = w.act p a := if_pos hlive'
  rw [hstep']
  obtain ⟨va, rfl, hva⟩ | ⟨va, byte, rfl, hva⟩ := hbelow.cases
  · obtain ⟨_, hload⟩ := Option.ite_none_right_eq_some.mp hact
    have hva' : va < (w.procs p).sz := by rwa [← h.1]
    simp only [Users.act, hva', if_true]
    unfold Users.load at hload ⊢
    rw [hpage]
    split at hload
    · rename_i page heq
      cases hload
      exact ⟨w, by simp only [heq], h, rfl⟩
    · rename_i heq
      obtain ⟨next', hkill, hagree⟩ := h.kill hload
      exact ⟨next', by simp only [heq]; exact hkill, hagree⟩
  · obtain ⟨_, hstore⟩ := Option.ite_none_right_eq_some.mp hact
    have hva' : va < (w.procs p).sz := by rwa [← h.1]
    simp only [Users.act, hva', if_true]
    unfold Users.store at hstore ⊢
    rw [hpage]
    split at hstore
    · rename_i page heq
      cases hstore
      rw [show u.page p va = some page from heq]
      refine ⟨_, rfl, h.setProc ?_, ?_⟩
      · simp only [h.1]
      · simp only [Users.setProc_self]
    · rename_i heq
      obtain ⟨next', hkill, hagree⟩ := h.kill hstore
      exact ⟨next', by simp only [heq]; exact hkill, hagree⟩

theorem Agree.trace {accesses : List Act} {events : List ((Slot × Act) × Outcome)}
    (h : Agree p s.users w.users) (hs : Sound kend s) (hw : Sound kend' w)
    (hcalm : s.mem.kfailed = false) (hcalm' : w.mem.kfailed = false)
    (hbelow : ∀ a ∈ accesses, AccessBelow (s.procs p).sz a)
    (hroom : Meets (forget perform) PageLeft s (program p accesses))
    (hroom' : Meets (forget perform) PageLeft w (program p accesses))
    (htrace : trace perform s (program p accesses) = some (final, events)) :
    ∃ final', trace perform w (program p accesses) = some (final', events) ∧
      Agree p final.users final'.users := by
  induction accesses generalizing s w events with
  | nil =>
    cases htrace
    exact ⟨w, rfl, h⟩
  | cons a rest ih =>
    rw [program, List.map_cons] at htrace hroom hroom'
    obtain ⟨s1, out, later, hstep, hrest, rfl⟩ := trace_cons_eq_some.mp htrace
    have ha := hbelow a List.mem_cons_self
    have hs1 := (perform_kfailed hs hroom.1 ha hstep).trans hcalm
    obtain ⟨hsound, hspec⟩ := perform_users hs ha hstep hs1
    obtain ⟨next', hspec', hagree, hsz⟩ := h.access ha hspec
    have hsz' : (w.procs p).sz = (s.procs p).sz := congrArg User.sz h.1.symm
    have ha' : AccessBelow (w.procs p).sz a := by
      rw [hsz']
      exact ha
    obtain ⟨⟨w1, out'⟩, hstep'⟩ := perform_returns hw hroom'.1 hcalm' ha' hspec'
    have hw1 := (perform_kfailed hw hroom'.1 ha' hstep').trans hcalm'
    obtain ⟨hsound', hspec''⟩ := perform_users hw ha' hstep' hw1
    obtain ⟨rfl, rfl⟩ := Prod.mk.inj (Option.some.inj (hspec'.symm.trans hspec''))
    obtain ⟨final', htrace', hfinal⟩ := ih hagree hsound hsound' hs1 hw1
      (fun b hb => by
        have hsz1 : (s1.procs p).sz = (s.procs p).sz := hsz
        rw [hsz1]
        exact hbelow b (List.mem_cons_of_mem a hb))
      (hroom.2 s1 (forget_of_step hstep)) (hroom'.2 w1 (forget_of_step hstep')) hrest
    exact ⟨final', trace_cons_eq_some.mpr ⟨w1, out, later, hstep', htrace', rfl⟩, hfinal⟩

end

/-! ### What a failed `cow_fork` leaves behind -/

theorem Shares.marks {n v : Nat} {src src' d' : PageDir} {m : Mem} {ok : Bool}
    (h : Shares n v src d m ok src' d' m') (u : Nat) :
    src'.present u = src.present u ∨
      ∃ pte, src.present u = some pte ∧ src'.present u = some pte.share := by
  have hmark : ∀ {src : PageDir} {v : Nat} {pte : Pte}, src.present v = some pte →
      (src.setPte v pte.share).present u = src.present u ∨
        ∃ pte', src.present u = some pte' ∧ (src.setPte v pte.share).present u = some
          pte'.share := by
    intro src v pte hsrc
    obtain ⟨hlookup, hp⟩ := present_eq_some.mp hsrc
    by_cases huv : u = v
    · subst huv
      exact Or.inr ⟨pte, hsrc, present_setPte_self hlookup hp⟩
    · exact Or.inl (present_setPte_of_ne huv)
  induction h with
  | done => exact Or.inl rfl
  | stop hsrc => exact hmark hsrc
  | page hsrc _ _ ih =>
    rcases hmark hsrc with hsame | ⟨pte', hpte', hshared⟩
    · rw [hsame] at ih
      exact ih
    · -- a page is marked once, marking it again changes nothing
      refine Or.inr ⟨pte', hpte', ?_⟩
      rw [hshared] at ih
      rcases ih with hkeep | ⟨pte'', hpte'', hagain⟩
      · exact hkeep
      · cases hpte''
        exact hagain

/-- The parent's entries may be marked as shared, a slot may stay `EMBRYO`, and
nothing else that is in use has changed. -/
structure Undone (s : Machine) (p : Slot) (s' : Machine) : Prop where
  dir : ∃ src src', (s.procs p).pgdir = some src ∧
    s'.procs p = { s.procs p with pgdir := some src' } ∧ src'.refs = src.refs ∧
    ∀ v, src'.present v = src.present v ∨
      ∃ pte, src.present v = some pte ∧ src'.present v = some pte.share
  others : ∀ x, x ≠ p → s'.procs x = s.procs x ∨
    ((s.procs x).pgdir = none ∧ (s'.procs x).pgdir = none ∧ (s'.procs x).state ≠ .runnable ∧
      (s'.procs x).state ≠ .zombie)
  initproc : s'.initproc = s.initproc
  kend : s'.mem.kend = s.mem.kend
  frame : ∀ q, q ∉ s.mem.freelist → q ∉ s'.mem.freelist → s'.mem.frame q = s.mem.frame q

section

variable {kend : Nat} {s s' : Machine} {p : Slot}

theorem Undone.pgdir (h : Undone s p s') {x : Slot} (hx : x ≠ p) :
    (s'.procs x).pgdir = (s.procs x).pgdir := by
  rcases h.others x hx with hsame | ⟨hnone, hnone', _⟩
  · rw [hsame]
  · rw [hnone, hnone']

theorem Undone.entry (h : Undone s p s') (x : Slot) (v : Nat) :
    s'.entry x v = s.entry x v ∨
      ∃ pte, s.entry x v = some pte ∧ s'.entry x v = some pte.share := by
  by_cases hx : x = p
  · subst hx
    obtain ⟨src, src', hsrc, hself, _, hmarks⟩ := h.dir
    have hdir' : (s'.procs x).pgdir = some src' := by rw [hself]
    rw [entry_of_dir hsrc, entry_of_dir hdir']
    exact hmarks v
  · exact Or.inl (entry_congr (h.pgdir hx))

theorem Undone.mapped (h : Undone s p s') : s'.mapped = s.mapped := by
  obtain ⟨src, src', hsrc, hself, hrefs, _⟩ := h.dir
  have hnew : NewDir s p src src' s' := ⟨hsrc, by rw [hself], fun y hy => h.pgdir hy⟩
  funext q
  have hmapped := hnew.mapped q
  rw [hrefs] at hmapped
  omega

theorem Undone.sound (h : Undone s p s') (hs : Sound kend s)
    (hinv : Inv effective (InRange kend) s') : Sound kend s' := by
  have hmapped := h.mapped
  refine ⟨⟨hinv, h.kend.trans hs.kend, fun x => ?_⟩, ?_⟩
  · by_cases hx : x = p
    · subst hx
      obtain ⟨src, src', hsrc, hself, _, hmarks⟩ := h.dir
      have hdense := (hs.full x).dense src hsrc
      have hlive := (hs.full x).live
      rw [hself]
      refine ⟨fun d hd => ?_, fun hstate => ⟨rfl, (hlive hstate).2⟩⟩
      cases hd
      intro v
      rw [← hdense v]
      rcases hmarks v with hsame | ⟨pte, hpte, hpte'⟩
      · rw [hsame]
      · rw [hpte, hpte']
        simp
    · rcases h.others x hx with hsame | ⟨_, hnone, hrun, hzombie⟩
      · rw [hsame]
        exact hs.full x
      · refine ⟨fun d hd => ?_, fun hstate => ?_⟩
        · rw [hnone] at hd
          cases hd
        · rcases hstate with h1 | h1
          · exact absurd h1 hrun
          · exact absurd h1 hzombie
  · refine hs.flagged.of_entries hinv fun x v pte hentry => ?_
    rcases h.entry x v with hsame | ⟨pte', hpte', hshare⟩
    · rw [hsame] at hentry
      exact Or.inl ⟨hentry, fun _ => by rw [hmapped]⟩
    · rw [hshare] at hentry
      cases hentry
      exact Or.inr ⟨by simp [Pte.share], rfl⟩

end

section NoRoom

variable {kend : Nat} {s : Machine} {p : Slot} {m : Mem}

theorem Shares.length {n v : Nat} {src src' d' : PageDir}
    (h : Shares n v src d m true src' d' m') (hd : Scanned d v) :
    m'.freelist.length + tablesFor (v + n) = m.freelist.length + tablesFor v := by
  generalize hok : true = ok at h
  induction h with
  | done => rfl
  | stop => cases hok
  | @page n v src d m pte d1 m1 ok src' d' m' hsrc hinstall hrest ih =>
    have hlater := ih (hinstall.scanned hd) hok
    have hone := hinstall.length hd
    rw [incCounter_eq, setCounter_freelist] at hlater
    rw [show v + (n + 1) = v + 1 + n by omega]
    omega

theorem Shares.first {n v : Nat} {src src' d' : PageDir} {ok : Bool}
    (h : Shares (n + 1) v src d m ok src' d' m') (hfree : m.freelist ≠ []) :
    ∃ pte, src.present v = some pte ∧ d'.present v = some pte.share := by
  cases h with
  | stop _ _ hfail => exact absurd (kalloc_none hfail).1 hfree
  | page hsrc hinstall hrest =>
    obtain ⟨_, hp⟩ := present_eq_some.mp hsrc
    refine ⟨_, hsrc, ?_⟩
    rw [(hrest.outside (Or.inl (Nat.lt_succ_self v))).2, hinstall.entry]
    simp only [Pte.share, hp]

end NoRoom

section

variable {free : Nat}

end

end Xv6.Vm
