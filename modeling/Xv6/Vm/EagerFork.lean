import Xv6.Vm.ForkImage

/-! The reference machine, in which `fork` copies, and the comparison of a run
with `cow_fork` with the same run there. -/
namespace Xv6.Vm
open Ledger Transition Simulation

/-- No entry has `PTE_SH`, so no fault is handled. -/
def NoShare (s : Machine) : Prop :=
  ∀ p v pte, s.entry p v = some pte → pte.flags.sh = false

variable {next : Users}

section

variable {kend : Nat} {s s' : Machine} {p : Slot} {d : PageDir} {out : Outcome} {va : Nat}

theorem noShare_congr (h : NoShare s) (hsame : ∀ c, (s'.procs c).pgdir = (s.procs c).pgdir) :
    NoShare s' := by
  intro x v pte hentry
  rw [entry_congr (hsame x)] at hentry
  exact h x v pte hentry

theorem noShare_fork (h : Sound kend s) (hshare : NoShare s) (hp : (s.procs p).state = .runnable)
    (hcall : fork s p = some (s', out)) (hcalm : s'.mem.kfailed = false) : NoShare s' := by
  rcases fork_calm h.inv hp hcall hcalm with ⟨rfl, _⟩ | ⟨c, src, d, _, hborn, hcopied⟩
  · exact hshare
  · intro x v pte hentry
    rcases hborn.entry hentry with ⟨_, hchild⟩ | ⟨_, hsrc⟩ | ⟨_, hother⟩
    · have hv := (hcopied.dense v).mp (by rw [hchild]; rfl)
      obtain ⟨pte', q, hpte', _, hchild', _⟩ := hcopied.entry v hv
      rw [hchild'] at hchild
      cases hchild
      exact hshare p v pte' (by rw [entry_of_dir hborn.dir, hpte'])
    · exact hshare p v pte (by rw [entry_of_dir hborn.dir, hsrc])
    · exact hshare x v pte hother

theorem noShare_sbrk {n : Int} (h : Sound kend s) (hshare : NoShare s) (hn : 0 ≤ n)
    (hcall : growproc s p n = some (s', out)) (hcalm : s'.mem.kfailed = false) : NoShare s' := by
  obtain ⟨d, d', hd, _, hs', hgrown⟩ := growproc_calm h.inv hn hcall hcalm
  have hdir : NewDir s p d d' s' := by
    rw [hs']
    exact newDir_setProc hd rfl
  intro x v pte hentry
  rcases hdir.entry hentry with ⟨rfl, hpresent⟩ | ⟨_, hother⟩
  · by_cases hv : pages (s.procs x).sz ≤ v ∧ v < pages (growSize (s.procs x).sz n)
    · obtain ⟨_, q, _, hnew, _⟩ := hgrown.entry v hv.1 hv.2
      rw [hnew] at hpresent
      cases hpresent
      rfl
    · rw [hgrown.outside v (by omega), ← entry_of_dir hd] at hpresent
      exact hshare x v pte hpresent
  · exact hshare x v pte hother

theorem noShare_wait (hshare : NoShare s) (hcall : cowWait s p = some (s', out)) : NoShare s' := by
  rcases waitWith_cases hcall with ⟨_, rfl, _⟩ | ⟨c, q, d, m1, m2, _, _, _, _, _, _, rfl⟩
  · exact hshare
  · intro x v pte hentry
    by_cases hxc : x = c
    · simp [hxc, Machine.entry] at hentry
    · rw [entry_congr (s := s) (by simp [Machine.setProc, hxc])] at hentry
      exact hshare x v pte hentry

theorem NoShare.not_retry (h : Sound kend s) (hshare : NoShare s)
    (hfault : pgfault s p va = some (s', out)) : out = .killed := by
  obtain ⟨d, ok, d', m, hd, hcopy, ⟨rfl, _, _⟩ | ⟨_, hout, _⟩⟩ := pgfault_cases hfault
  · obtain ⟨pte, hunshares⟩ := (cowCopyuvm_copies hcopy).unshares h.inv hd
    have hsh := hshare p _ pte (by rw [entry_of_dir hd, hunshares.entry])
    rw [hunshares.sh] at hsh
    cases hsh
  · exact hout

theorem users_kill_none (hinit : p = s.initproc) : s.users.kill p = none := by
  unfold Users.kill Users.exit
  rw [if_pos (by exact hinit)]
  rfl

theorem users_page_some (hd : (s.procs p).pgdir = some d) {page : Page}
    (h : s.users.page p va = some page) :
    ∃ pte, d.present (va / pgsize) = some pte ∧ pte.flags.u = true := by
  rw [users_page hd] at h
  obtain ⟨pte, hpte, hu⟩ := Option.bind_eq_some_iff.mp h
  refine ⟨pte, hpte, ?_⟩
  by_contra hne
  simp [hne] at hu

theorem load_total (h : Sound kend s) (hp : (s.procs p).state = .runnable)
    (hspec : s.users.load p va = some (next, out)) : ∃ result, load s p va = some result := by
  obtain ⟨d, hd⟩ := h.toReady.dir hp
  by_cases hinit : p = s.initproc
  · unfold Users.load at hspec
    rw [users_kill_none hinit] at hspec
    split at hspec
    · rename_i page hpage
      obtain ⟨⟨q, present, w, u, sh⟩, hpte, hu⟩ := users_page_some hd hpage
      obtain ⟨hlookup, hpresent⟩ := present_eq_some.mp hpte
      cases hpresent
      cases hu
      unfold load
      simp only [hd, hlookup]
      exact ⟨_, rfl⟩
    · cases hspec
  · unfold load
    simp only [hd]
    split
    · exact ⟨_, rfl⟩
    · exact pgfault_total h.toReady hp hinit

theorem store_total {byte : UInt8} (h : Sound kend s) (hshare : NoShare s)
    (hp : (s.procs p).state = .runnable) (hspec : s.users.store p va byte = some (next, out)) :
    ∃ result, store s p va byte = some result := by
  obtain ⟨d, hd⟩ := h.toReady.dir hp
  by_cases hinit : p = s.initproc
  · unfold Users.store at hspec
    rw [users_kill_none hinit] at hspec
    split at hspec
    · rename_i page hpage
      obtain ⟨⟨q, present, w, u, sh⟩, hpte, hu⟩ := users_page_some hd hpage
      have hentry : s.entry p (va / pgsize) = some _ := (entry_of_dir hd).trans hpte
      have hw := (h.flagged p _ _ hentry).2
      rw [hshare p _ _ hentry] at hw
      obtain ⟨hlookup, hpresent⟩ := present_eq_some.mp hpte
      cases hpresent
      cases hu
      cases hw
      unfold store
      simp only [hd, hlookup]
      exact ⟨_, rfl⟩
    · cases hspec
  · unfold store
    simp only [hd]
    split
    · exact ⟨_, rfl⟩
    · exact pgfault_total h.toReady hp hinit

end

theorem reference_step {kend : Nat} {s : Machine} {label : Slot × Act}
    {out : Outcome} (h : Sound kend s ∧ NoShare s)
    (hspec : s.users.step label = some (next, out)) :
    ∃ s' out', stepOut s label = some (s', out') ∧
      (s'.mem.kfailed = false → (Sound kend s' ∧ NoShare s') ∧ s'.users = next ∧ out' = out) := by
  obtain ⟨hsound, hshare⟩ := h
  obtain ⟨p, a⟩ := label
  obtain ⟨hlive, hact⟩ := Option.ite_none_right_eq_some.mp hspec
  have hp : (s.procs p).state = .runnable := hlive
  -- the step exists; that it gives the same is the simulation
  have hsame : ∀ {s' out'}, ForkGuard s (p, a) → a.eager = a → act s p a = some (s', out') →
      out' ≠ .retry → NoShare s' → s'.mem.kfailed = false →
      (Sound kend s' ∧ NoShare s') ∧ s'.users = next ∧ out' = out := by
    intro s' out' hguard heager hcall hne hshare' hcalm
    obtain ⟨hsound', hfollows⟩ := step_users hsound hguard ((if_pos hp).trans hcall) hcalm
    rw [seen_of_ne hne, heager] at hfollows
    cases hspec.symm.trans hfollows
    exact ⟨⟨hsound', hshare'⟩, rfl, rfl⟩
  have hstep : ∀ {s' out'}, act s p a = some (s', out') → stepOut s (p, a) = some (s', out') :=
    fun hcall => (if_pos hp).trans hcall
  cases a with
  | fork =>
    obtain ⟨⟨s', out'⟩, hcall⟩ := fork_total hsound.toReady hp
    exact ⟨s', out', hstep hcall, fun hcalm => hsame trivial rfl hcall (forkWith_ne_retry hcall)
      (noShare_fork hsound hshare hp hcall hcalm) hcalm⟩
  | exit =>
    obtain ⟨_, hexit, _⟩ := Option.map_eq_some_iff.mp hact
    have hinit : p ≠ s.initproc := by
      intro hinit
      rw [Users.exit, if_pos (by exact hinit)] at hexit
      cases hexit
    obtain ⟨s', hcall⟩ := exit_total hinit
    have hcall' : act s p .exit = some (s', .done) := by simp [act, hcall]
    exact ⟨s', .done, hstep hcall', fun hcalm => hsame trivial rfl hcall' (by simp)
      (noShare_congr hshare (exit_pgdir hcall)) hcalm⟩
  | cowWait =>
    obtain ⟨⟨s', out'⟩, hcall⟩ := cowWait_total (p := p) hsound.toReady
    exact ⟨s', out', hstep hcall, fun hcalm => hsame trivial rfl hcall (wait_ne_retry hcall)
      (noShare_wait hshare hcall) hcalm⟩
  | sbrk n =>
    obtain ⟨hn, _⟩ := Option.ite_none_right_eq_some.mp hact
    obtain ⟨⟨s', out'⟩, hcall⟩ := growproc_total hsound.toReady hp hn
    exact ⟨s', out', hstep hcall, fun hcalm => hsame hn rfl hcall (growproc_ne_retry hcall)
      (noShare_sbrk hsound hshare hn hcall hcalm) hcalm⟩
  | load va =>
    obtain ⟨hva, hload⟩ := Option.ite_none_right_eq_some.mp hact
    obtain ⟨⟨s', out'⟩, hcall⟩ := load_total hsound hp hload
    refine ⟨s', out', hstep hcall, fun hcalm => ?_⟩
    rcases load_cases hcall with ⟨_, _, _, _, _, rfl, rfl⟩ | ⟨_, hfault⟩
    · exact hsame hva rfl hcall (by simp) hshare hcalm
    · obtain rfl := hshare.not_retry hsound hfault
      exact hsame hva rfl hcall (by simp)
        (noShare_congr hshare (pgfault_killed_dirs hfault hcalm)) hcalm
  | store va byte =>
    obtain ⟨hva, hstore⟩ := Option.ite_none_right_eq_some.mp hact
    obtain ⟨⟨s', out'⟩, hcall⟩ := store_total hsound hshare hp hstore
    refine ⟨s', out', hstep hcall, fun hcalm => ?_⟩
    rcases store_cases hcall with ⟨_, _, _, _, _, _, rfl, rfl⟩ | ⟨_, hfault⟩
    · exact hsame hva rfl hcall (by simp) (noShare_congr hshare fun _ => rfl) hcalm
    · obtain rfl := hshare.not_retry hsound hfault
      exact hsame hva rfl hcall (by simp)
        (noShare_congr hshare (pgfault_killed_dirs hfault hcalm)) hcalm
  | cowFork | wait | exec img => cases hact

/-- The entry of page `v` of a process that runs, if there is one, has no `PTE_SH`. -/
def Settled (p : Slot) (v : Nat) (s : Machine) : Prop :=
  (s.procs p).state = .runnable ∧ ∀ pte, s.entry p v = some pte → pte.flags.sh = false

section

variable {kend : Nat} {s s' : Machine} {p x : Slot} {a : Act} {out : Outcome} {va : Nat}

variable {v : Nat}

theorem settled_congr (h : Settled p v s) (hstate : (s'.procs p).state = (s.procs p).state)
    (hdir : (s'.procs p).pgdir = (s.procs p).pgdir) : Settled p v s' := by
  refine ⟨hstate.trans h.1, fun pte hentry => h.2 pte ?_⟩
  rwa [entry_congr hdir] at hentry

theorem Born.settled {c : Slot} {src src' d : PageDir} (h : Settled p v s)
    (hborn : Born s x c src src' d s') (hx : x ≠ p) : Settled p v s' := by
  have hpc : p ≠ c := by
    rintro rfl
    have hunused := unusedSlot_state hborn.slot
    rw [h.1] at hunused
    cases hunused
  have hsame := hborn.others p hx.symm hpc
  exact settled_congr h (by rw [hsame]) (by rw [hsame])

theorem exit_settled (h : Settled p v s) (hexit : exit s x = some s') (hx : x ≠ p) :
    Settled p v s' := by
  obtain ⟨_, _, _, _, hothers⟩ := exit_cases hexit
  obtain ⟨_, _, _, hstate, _⟩ := reparent_same s x (s.procs p)
  refine settled_congr h ?_ (exit_pgdir hexit p)
  rw [hothers p hx.symm, hstate]

theorem pgfault_settled (h : Settled p v s) (hfault : pgfault s x va = some (s', out))
    (hx : x ≠ p) : Settled p v s' := by
  obtain ⟨d, ok, d', m, hd, _, ⟨_, _, rfl⟩ | ⟨_, _, hexit⟩⟩ := pgfault_cases hfault
  · have hsame := setDir_of_ne (s := s) hx.symm d'
    exact settled_congr h (by simp only [hsame]) (by simp only [hsame])
  · refine exit_settled ?_ hexit hx
    have hsame := setProc_of_ne s { s.procs x with pgdir := some d', killed := true } hx.symm
    exact settled_congr h (by simp only [hsame]) (by simp only [hsame])

theorem waitWith_spares {free : Mem → PageDir → Option Mem}
    (hwait : waitWith free s x = some (s', out)) (hp : (s.procs p).state = .runnable) :
    s'.procs p = s.procs p := by
  rcases waitWith_cases hwait with ⟨_, rfl, _⟩ | ⟨c, q, d, m1, m2, hzombie, _, _, _, _, _, rfl⟩
  · rfl
  · have hpc : p ≠ c := by
      rintro rfl
      have hfound := List.find?_some hzombie
      simp [hp] at hfound
    exact setProc_of_ne s _ hpc

theorem step_settled (hsound : Sound kend s) (h : Settled p v s)
    (hguard : ForkGuard s (x, a)) (hstep : stepOut s (x, a) = some (s', out))
    (hcalm : s'.mem.kfailed = false) (hx : x ≠ p) : Settled p v s' := by
  obtain ⟨hlive, hact⟩ := Option.ite_none_right_eq_some.mp hstep
  cases a with
  | fork =>
    rcases fork_calm hsound.inv hlive hact hcalm with ⟨rfl, _⟩ | ⟨c, src, d, _, hborn, _⟩
    · exact h
    · exact hborn.settled h hx
  | cowFork =>
    rcases cowFork_calm hsound.inv hlive hact hcalm with ⟨rfl, _⟩ | ⟨c, src, src', d, _, hborn, _⟩
    · exact h
    · exact hborn.settled h hx
  | exit =>
    obtain ⟨s1, hexit, hresult⟩ := Option.map_eq_some_iff.mp hact
    cases hresult
    exact exit_settled h hexit hx
  | wait => exact hguard.elim
  | cowWait =>
    have hsame := waitWith_spares hact h.1
    exact settled_congr h (by rw [hsame]) (by rw [hsame])
  | exec img => exact hguard.elim
  | sbrk n =>
    obtain ⟨d, d', _, _, hs', _⟩ := growproc_calm hsound.inv hguard hact hcalm
    have hsame : s'.procs p = s.procs p := by
      rw [hs']
      exact setProc_of_ne s _ hx.symm
    exact settled_congr h (by rw [hsame]) (by rw [hsame])
  | load va =>
    rcases load_cases hact with ⟨_, _, _, _, _, rfl, _⟩ | ⟨_, hfault⟩
    · exact h
    · exact pgfault_settled h hfault hx
  | store va byte =>
    rcases store_cases hact with ⟨_, _, _, _, _, _, _, rfl⟩ | ⟨_, hfault⟩
    · exact settled_congr h rfl rfl
    · exact pgfault_settled h hfault hx

theorem retry_cases (hguard : ForkGuard s (p, a)) (hstep : stepOut s (p, a) = some (s', .retry)) :
    ∃ va, (a = .load va ∨ ∃ byte, a = .store va byte) ∧ pgfault s p va = some (s', .retry) := by
  obtain ⟨_, hact⟩ := Option.ite_none_right_eq_some.mp hstep
  cases a with
  | fork => exact absurd rfl (forkWith_ne_retry (show fork s p = _ from hact))
  | cowFork => exact absurd rfl (forkWith_ne_retry (show cowFork s p = _ from hact))
  | exit =>
    obtain ⟨s1, _, hresult⟩ := Option.map_eq_some_iff.mp hact
    cases hresult
  | wait => exact hguard.elim
  | cowWait => exact absurd rfl (wait_ne_retry hact)
  | exec img => exact hguard.elim
  | sbrk n => exact absurd rfl (growproc_ne_retry hact)
  | load va =>
    rcases load_cases hact with ⟨_, _, _, _, _, _, hout⟩ | ⟨_, hfault⟩
    · cases hout
    · exact ⟨va, Or.inl rfl, hfault⟩
  | store va byte =>
    rcases store_cases hact with ⟨_, _, _, _, _, _, hout, _⟩ | ⟨_, hfault⟩
    · cases hout
    · exact ⟨va, Or.inr ⟨byte, rfl⟩, hfault⟩

theorem retry_settles (h : Sound kend s) (hp : (s.procs p).state = .runnable)
    (hfault : pgfault s p va = some (s', .retry)) : Settled p (va / pgsize) s' := by
  obtain ⟨d, ok, d', m, hd, hcopy, ⟨rfl, _, rfl⟩ | ⟨_, hout, _⟩⟩ := pgfault_cases hfault
  · obtain ⟨pte, hunshares⟩ := (cowCopyuvm_copies hcopy).unshares h.inv hd
    refine ⟨by simpa [Machine.setDir] using hp, fun pte' hentry => ?_⟩
    rw [entry_of_dir (d := d') (by simp [Machine.setDir])] at hentry
    rcases hunshares.moved with ⟨q, _, _, hnew, _⟩ | ⟨_, hnew, _⟩ <;>
    · rw [hnew] at hentry
      cases hentry
      rfl
  · cases hout

theorem settled_no_retry (h : Sound kend s) (hsettled : Settled p (va / pgsize) s) :
    pgfault s p va ≠ some (s', .retry) := by
  intro hfault
  obtain ⟨d, ok, d', m, hd, hcopy, ⟨rfl, _, _⟩ | ⟨_, hout, _⟩⟩ := pgfault_cases hfault
  · obtain ⟨pte, hunshares⟩ := (cowCopyuvm_copies hcopy).unshares h.inv hd
    have hsh := hsettled.2 pte (by rw [entry_of_dir hd, hunshares.entry])
    rw [hunshares.sh] at hsh
    cases hsh
  · cases hout

end

def KallocsSucceed (s : Machine) (labels : List (Slot × Act)) : Prop :=
  Along step (fun _ _ next => next.mem.kfailed = false) s labels

/-- An access that is executed again after a handled fault does not fault a
second time, whatever the other processes do in between. -/
def RetriesSettle (events : List ((Slot × Act) × Outcome)) : Prop :=
  ∀ before mid after p a out,
    events = before ++ ((p, a), .retry) :: (mid ++ ((p, a), out) :: after) →
    (∀ event ∈ mid, event.1.1 ≠ p) → out ≠ .retry

section

variable {kend : Nat} {s final : Machine} {labels : List (Slot × Act)}
  {events : List ((Slot × Act) × Outcome)}

theorem settled_run {p : Slot} {a : Act} {va : Nat} {out : Outcome}
    {mid after : List ((Slot × Act) × Outcome)} (h : Sound kend s)
    (hmeets : Meets step ForkGuard s labels) (hcalm : KallocsSucceed s labels)
    (htrace : trace stepOut s labels = some (final, mid ++ ((p, a), out) :: after))
    (hmid : ∀ event ∈ mid, event.1.1 ≠ p) (hsettled : Settled p (va / pgsize) s)
    (haccess : a = .load va ∨ ∃ byte, a = .store va byte) : out ≠ .retry := by
  induction mid generalizing s labels with
  | nil =>
    cases labels with
    | nil => cases htrace
    | cons label rest =>
      obtain ⟨next, out', later, hstep, _, hevents⟩ := trace_cons_eq_some.mp htrace
      cases hevents
      rintro rfl
      obtain ⟨va', haccess', hfault⟩ := retry_cases hmeets.1 hstep
      have hsame : va' = va := by
        rcases haccess with rfl | ⟨byte, rfl⟩ <;> rcases haccess' with heq | ⟨_, heq⟩ <;> cases heq
          <;> rfl
      subst hsame
      exact settled_no_retry h hsettled hfault
  | cons event mid ih =>
    cases labels with
    | nil => cases htrace
    | cons label rest =>
      obtain ⟨next, out', later, hstep, hrest, hevents⟩ := trace_cons_eq_some.mp htrace
      cases hevents
      have hnext := forget_of_step hstep
      obtain ⟨hcalm', hcalms⟩ := hcalm next hnext
      have hother := hmid _ List.mem_cons_self
      exact ih (step_users h hmeets.1 hstep hcalm').1 (hmeets.2 next hnext) hcalms hrest
        (fun e he => hmid e (List.mem_cons_of_mem _ he))
        (step_settled h hsettled hmeets.1 hstep hcalm' hother)

theorem retriesSettle_run (h : Sound kend s) (hmeets : Meets step ForkGuard s labels)
    (hcalm : KallocsSucceed s labels) (htrace : trace stepOut s labels = some (final, events)) :
    RetriesSettle events := by
  induction labels generalizing s events with
  | nil =>
    cases htrace
    intro before mid after p a out hevents
    simp at hevents
  | cons label rest ih =>
    obtain ⟨next, out', later, hstep, hrest, rfl⟩ := trace_cons_eq_some.mp htrace
    have hnext := forget_of_step hstep
    obtain ⟨hcalm', hcalms⟩ := hcalm next hnext
    have hsound := (step_users h hmeets.1 hstep hcalm').1
    intro before mid after p a out hevents hmid
    cases before with
    | nil =>
      cases hevents
      obtain ⟨va, haccess, hfault⟩ := retry_cases hmeets.1 hstep
      have hlive := (Option.ite_none_right_eq_some.mp hstep).1
      exact settled_run hsound (hmeets.2 next hnext) hcalms hrest hmid
        (retry_settles h hlive hfault) haccess
    | cons event before =>
      obtain ⟨_, hlater⟩ := List.cons.inj hevents
      exact ih hsound (hmeets.2 next hnext) hcalms hrest before mid after p a out hlater hmid

end

/-- Processes with private pages, every page below the size of its process, and
all pages from the range of the allocator. -/
structure ForkStart (s : Machine) : Prop where
  pages : PrivateStart effective s
  full : ∀ p, (s.procs p).Full
  range : ∀ q, 0 < s.mem.freelist.count q + s.owned q + s.mapped q → InRange s.mem.kend q

theorem ForkStart.sound {s : Machine} (h : ForkStart s) : Sound s.mem.kend s :=
  ⟨⟨h.pages.inv h.range, rfl, h.full⟩, h.pages.flagged⟩

/-- `cow_fork` is an eager `fork` to the processes: without the handled faults,
the events of a run are those of the machine in which each `cow_fork` is a
`fork`, and the processes end with the same memory. -/
theorem cow_fork_looks_eager {start final : Machine} {labels : List (Slot × Act)}
    {events : List ((Slot × Act) × Outcome)} (hstart : ForkStart start)
    (hguard : Meets step ForkGuard start labels)
    (hrun : trace stepOut start labels = some (final, events))
    (hcow : KallocsSucceed start labels)
    (heager : KallocsSucceed start ((events.filterMap seen).map Prod.fst)) :
    (∃ final', trace stepOut start ((events.filterMap seen).map Prod.fst) =
        some (final', events.filterMap seen) ∧ final'.users = final.users) ∧
      RetriesSettle events := by
  have hshare : NoShare start := fun p v pte hentry => (hstart.pages.flags p v pte hentry).2
  have hspec : trace Users.step start.users ((events.filterMap seen).map Prod.fst) =
      some (final.users, events.filterMap seen) :=
    trace_simulates (fun _ _ _ _ => step_users) hstart.sound hguard hcow hrun
  exact ⟨trace_implements (fun s label next out h hspec => reference_step h hspec)
    ⟨hstart.sound, hshare⟩ heager hspec, retriesSettle_run hstart.sound hguard hcow hrun⟩

theorem forkStart_userinit {m : Mem} {init : Page} {s : Machine} (hnodup : m.freelist.Nodup)
    (hzero : ∀ q, m.counters q = 0) (hrange : ∀ q ∈ m.freelist, InRange m.kend q)
    (h : userinit m init = some s) (hcalm : s.mem.kfailed = false) : ForkStart s := by
  obtain ⟨c, d', ⟨s1, d, m1, q, _, hq, hsetup, hinit, hself⟩, hothers, _⟩ := userinit_boots h
  have hfresh := fresh_setupkvm hsetup
  obtain ⟨q', m2, hq', hinstall | ⟨_, hfail⟩⟩ := inituvm_cases hinit
  · have hkend : s.mem.kend = m.kend :=
      hinstall.took.kend.trans ((took_kalloc hq').kend.trans
        ((took_setupkvm hsetup).kend.trans (took_kalloc hq).kend))
    have hinv : Inv effective (InRange m.kend) s := inv_userinit hnodup hzero hrange h
    refine ⟨privateStart_userinit hnodup hzero h, fun p => ?_, ?_⟩
    · by_cases hpc : p = c
      · rw [hpc, hself]
        refine ⟨fun d1 hd1 => ?_, fun _ => ⟨rfl, rfl⟩⟩
        cases hd1
        intro v
        have hone : pages pgsize = 1 := by decide
        by_cases hv : v = 0
        · rw [hv, hinstall.entry]
          simp [hone]
        · rw [hinstall.others v hv, hfresh.present]
          simp [hone, hv]
      · rw [hothers p hpc]
        exact ⟨by simp, by simp⟩
    · rw [hkend]
      exact hinv.books.range
  · rw [(lost_kalloc hfail).failed] at hcalm
    cases hcalm

instance (s : Machine) (label : Slot × Act) : Decidable (ForkGuard s label) := by
  unfold ForkGuard
  split <;> infer_instance

/-- Parent and child write the page they share, and the child exits. -/
def bothWrite : List (Slot × Act) :=
  [(slot0, .cowFork), (slot1, .store 7 65), (slot0, .load 7), (slot1, .store 7 65),
  (slot0, .store 7 66),
    (slot1, .load 7), (slot0, .store 7 66), (slot1, .exit), (slot0, .cowWait), (slot0, .load 7)]

instance (s : Machine) (labels : List (Slot × Act)) : Decidable (KallocsSucceed s labels) :=
  inferInstanceAs (Decidable (Along ..))

theorem smallMem_range : ∀ q ∈ smallMem.freelist, InRange smallMem.kend q := by
  intro q hq
  have hmem : q ∈ List.range' 1024 300 := hq
  have hbounds := List.mem_range'_1.mp hmem
  refine ⟨?_, ?_, by omega⟩
  · exact le_trans (by decide) hbounds.1
  · exact lt_of_lt_of_le hbounds.2 (by decide)

theorem cow_fork_looks_eager_both_write :
    ∃ start final events, ForkStart start ∧ trace stepOut start bothWrite = some (final, events) ∧
      events.map Prod.snd = [.child 1, .retry, .loaded 0, .stored, .retry, .loaded 65, .stored,
        .done, .reaped 1, .loaded 66] ∧
      ∃ final', trace stepOut start ((events.filterMap seen).map Prod.fst) =
        some (final', events.filterMap seen) := by
  obtain ⟨start, hboot, hcalm, hguard, hcow, ⟨final, events⟩, htrace, houts, heager⟩ :
      ∃ start, userinit smallMem zeroPage = some start ∧ start.mem.kfailed = false ∧
        Meets step ForkGuard start bothWrite ∧ KallocsSucceed start bothWrite ∧
        ∃ result, trace stepOut start bothWrite = some result ∧
          result.2.map Prod.snd = [.child 1, .retry, .loaded 0, .stored, .retry, .loaded 65,
            .stored, .done, .reaped 1, .loaded 66] ∧
          KallocsSucceed start ((result.2.filterMap seen).map Prod.fst) := by
    decide +kernel
  have hstart := forkStart_userinit List.nodup_range' (fun _ => rfl) smallMem_range hboot hcalm
  obtain ⟨⟨final', hfinal', _⟩, _⟩ := cow_fork_looks_eager hstart hguard htrace hcow heager
  exact ⟨start, final, events, hstart, htrace, houts, final', hfinal'⟩

/-- A process without its parent, which can exit. -/
def User.own (x : User) : User := { x with parent := none }

/-- The step changes nothing of another process that runs, however many pages they share. -/
def Isolated (s : Machine) (label : Slot × Act) (next : Machine) : Prop :=
  ∀ p, p ≠ label.1 → (s.procs p).state = .runnable →
    (next.users.procs p).own = (s.users.procs p).own

theorem exit_own {u u' : Users} {x p : Slot} (h : u.exit x = some u') (hp : p ≠ x) :
    (u'.procs p).own = (u.procs p).own := by
  obtain ⟨-, hresult⟩ := Option.ite_none_left_eq_some.mp h
  cases hresult
  simp only [Function.update_of_ne hp, Users.adopt]
  split <;> rfl

theorem users_isolated {u u' : Users} {p : Slot} {label : Slot × Act} {out : Outcome}
    (h : u.step label = some (u', out)) (hp : p ≠ label.1)
    (hlive : (u.procs p).state = .runnable) : (u'.procs p).own = (u.procs p).own := by
  obtain ⟨x, a⟩ := label
  obtain ⟨-, hact⟩ := Option.ite_none_right_eq_some.mp h
  have hkill : ∀ out, u.kill x = some (u', out) → (u'.procs p).own = (u.procs p).own := by
    intro out hkill
    obtain ⟨u1, hexit, hresult⟩ := Option.map_eq_some_iff.mp hkill
    cases hresult
    rw [exit_own hexit hp, Users.setProc_of_ne u _ hp]
  cases a with
  | exit =>
    obtain ⟨u1, hexit, hresult⟩ := Option.map_eq_some_iff.mp hact
    cases hresult
    exact exit_own hexit hp
  | _ =>
    -- `fork` and `cow_wait` take a slot that does not run, the others the slot of the caller
    grind [Users.act, Users.fork, Users.wait, Users.sbrk, Users.load, Users.store,
      Users.unusedSlot, Users.zombieChild, Users.setProc_of_ne]

/-- Memory isolation: in every run from private pages in which no `kalloc` fails, the calls,
stores and handled faults of a process leave the memory of the others as it is. -/
theorem processes_isolated {start : Machine} {labels : List (Slot × Act)}
    (hstart : ForkStart start) (hguard : Meets calmStep ForkGuard start labels) :
    Along calmStep Isolated start labels := by
  refine along_of_invariant (fun s label next hsound hguard hnext => ?_) hstart.sound hguard
  obtain ⟨hstep, hcalm⟩ := Option.filter_eq_some_iff.mp hnext
  obtain ⟨⟨_, out⟩, hout, rfl⟩ := Option.map_eq_some_iff.mp hstep
  obtain ⟨hsound', hfollows⟩ := step_users hsound hguard hout (by simpa using hcalm)
  refine ⟨hsound', fun p hp hlive => ?_⟩
  unfold seen at hfollows
  split at hfollows
  · rw [hfollows]
  · exact users_isolated hfollows hp hlive

theorem processes_isolated_both_write : ∃ start, ForkStart start ∧
    (run calmStep start bothWrite).isSome = true ∧ Along calmStep Isolated start bothWrite := by
  obtain ⟨start, hboot, hcalm, hguard, hrun⟩ : ∃ start, userinit smallMem zeroPage = some start ∧
      start.mem.kfailed = false ∧ Meets calmStep ForkGuard start bothWrite ∧
      (run calmStep start bothWrite).isSome = true := by
    decide +kernel
  have hstart := forkStart_userinit List.nodup_range' (fun _ => rfl) smallMem_range hboot hcalm
  exact ⟨start, hstart, hrun, processes_isolated hstart hguard⟩

end Xv6.Vm
