import Xv6.Lib.Transition
import Xv6.Vm.Process
import Xv6.Vm.Sharing

/-! A `fork` or `cow_fork` that returns -1, with the states of all process and
thread slots. The kernel stack is the only allocation whose failure is not
undone in the process table; `setupkvm` and a failed `mappages` lose pages. -/
namespace Xv6.Vm
open Function Ledger

structure ThreadSlot where
  state : ProcState
  tid : Nat
  kstack : Option Nat

structure ProcSlot where
  state : ProcState
  pid : Nat
  sz : Nat
  pgdir : Option PageDir
  parent : Option Slot
  pthreads : Fin nthread → ThreadSlot

structure Ptable where
  proc : Slot → ProcSlot
  nextpid : Nat
  nexttid : Nat
  mem : Mem

def Ptable.setProc (s : Ptable) (p : Slot) (proc : ProcSlot) : Ptable :=
  { s with proc := update s.proc p proc }

def Ptable.setThread (s : Ptable) (p : Slot) (t : Fin nthread) (thread : ThreadSlot) : Ptable :=
  s.setProc p { s.proc p with pthreads := update (s.proc p).pthreads t thread }

/-- The first `UNUSED` entry in the order of a table. -/
def firstUnused {n : Nat} (state : Fin n → ProcState) : Option (Fin n) :=
  (List.finRange n).find? fun i => state i = .unused

/-- The label `found` of `allocthread`. -/
def Ptable.foundThread (s : Ptable) (p : Slot) (t : Fin nthread) : Ptable :=
  { s.setThread p t { (s.proc p).pthreads t with state := .embryo, tid := s.nexttid } with
    nexttid := s.nexttid + 1 }

/-- `*t` gets a kernel stack, or goes back to `UNUSED`. -/
def Ptable.allocthread (s : Ptable) (p : Slot) : Option (Fin nthread) × Ptable :=
  match firstUnused fun t => ((s.proc p).pthreads t).state with
  | none => (none, s)
  | some t =>
    let s := s.foundThread p t
    match kalloc s.mem with
    | (none, m) =>
      (none, { s.setThread p t { (s.proc p).pthreads t with kstack := none, state := .unused } with
        mem := m })
    | (some q, m) =>
      (some t, { s.setThread p t { (s.proc p).pthreads t with kstack := some q } with mem := m })

/-- The label `found` of `allocproc`. -/
def Ptable.foundProc (s : Ptable) (p : Slot) : Ptable :=
  let proc := { s.proc p with
    state := .embryo, pid := s.nextpid
    pthreads := fun t => { (s.proc p).pthreads t with state := .unused } }
  { s.setProc p proc with nextpid := s.nextpid + 1 }

/-- The result of `allocthread` is returned as it is: without a stack the slot
stays `EMBRYO`. -/
def Ptable.allocproc (s : Ptable) : Option (Slot × Fin nthread) × Ptable :=
  match firstUnused fun p => (s.proc p).state with
  | none => (none, s)
  | some p =>
    match (s.foundProc p).allocthread p with
    | (none, s) => (none, s)
    | (some t, s) => (some (p, t), s)

/-- `fork` and `cow_fork` of process `p`: the child's pid, or `none` for -1. -/
def Ptable.forkWith (dup : Mem → PageDir → Nat → Option (Option PageDir × PageDir × Mem))
    (s : Ptable) (p : Slot) : Option (Ptable × Option Nat) :=
  match s.allocproc with
  | (none, s) => some (s, none)
  | (some (np, nt), s) =>
    match (s.proc p).pgdir with
    | none => none
    | some src =>
      match dup s.mem src (s.proc p).sz with
      | none => none
      | some (none, src, m) =>
        match ((s.proc np).pthreads nt).kstack with
        | none => none
        | some q =>
          (kfree m q).map fun m =>
            let s := s.setProc p { s.proc p with pgdir := some src }
            let s := s.setThread np nt
              { (s.proc np).pthreads nt with kstack := none, state := .unused }
            ({ s.setProc np { s.proc np with pgdir := none, state := .unused } with mem := m },
              none)
      | some (some d, src, m) =>
        let s := s.setProc p { s.proc p with pgdir := some src }
        let s := s.setThread np nt { (s.proc np).pthreads nt with state := .runnable }
        let np' := { s.proc np with
          pgdir := some d, sz := (s.proc p).sz, parent := some p, state := .runnable }
        some ({ s.setProc np np' with mem := m }, some (s.proc np).pid)

def Ptable.fork : Ptable → Slot → Option (Ptable × Option Nat) :=
  Ptable.forkWith fun m src sz => (copyuvm m src sz).map fun result => (result.1, src, result.2)

def Ptable.cowFork : Ptable → Slot → Option (Ptable × Option Nat) :=
  Ptable.forkWith cowShareuvm

def SameStates (s s' : Ptable) : Prop :=
  ∀ p, (s'.proc p).state = (s.proc p).state ∧
    ∀ t, ((s'.proc p).pthreads t).state = ((s.proc p).pthreads t).state

/-- There is no slot for the child, or one whose threads were never used and a
page for the kernel stack. -/
def StackLeft (s : Ptable) : Prop :=
  ∀ np, firstUnused (fun p => (s.proc p).state) = some np →
    s.mem.freelist ≠ [] ∧ ∀ t, ((s.proc np).pthreads t).state = .unused

/-- There is no slot for the child, or no page for its directory, or pages enough for the
stack and for `setupkvm` that end at a user page: 1025 pages are 1024 user pages with their
page table. -/
def PagesKept (s : Ptable) : Prop :=
  firstUnused (fun p => (s.proc p).state) = none ∨ s.mem.freelist.length ≤ 1 ∨
    kernelTables + 2 ≤ s.mem.freelist.length ∧
      (s.mem.freelist.length - (kernelTables + 2)) % (nptentries + 1) ≠ 1

/-! ### The process table -/

section

variable {s s' : Ptable} {p np : Slot} {nt : Fin nthread}

theorem firstUnused_some {n : Nat} {state : Fin n → ProcState} {i : Fin n}
    (h : firstUnused state = some i) : state i = .unused := by
  simpa using List.find?_some h

theorem firstUnused_none {n : Nat} {state : Fin n → ProcState} (h : firstUnused state = none)
    (i : Fin n) : state i ≠ .unused := by
  have hall := List.find?_eq_none.mp h i (List.mem_finRange i)
  simpa using hall

@[simp] theorem Ptable.setProc_self (s : Ptable) (p : Slot) (proc : ProcSlot) :
    (s.setProc p proc).proc p = proc :=
  update_self ..

theorem Ptable.setProc_of_ne {q : Slot} (proc : ProcSlot) (h : q ≠ p) :
    (s.setProc p proc).proc q = s.proc q :=
  update_of_ne h ..

theorem foundThread_of_ne {c : Slot} {t : Fin nthread} (h : c ≠ p) :
    (s.foundThread p t).proc c = s.proc c :=
  Ptable.setProc_of_ne _ h

theorem foundThread_state (s : Ptable) (p : Slot) {t u : Fin nthread} (h : u ≠ t) :
    (((s.foundThread p t).proc p).pthreads u) = (s.proc p).pthreads u := by
  simp only [Ptable.foundThread, Ptable.setThread, Ptable.setProc_self]
  exact update_of_ne h ..

theorem foundProc_of_ne {c : Slot} (h : c ≠ p) : (s.foundProc p).proc c = s.proc c :=
  Ptable.setProc_of_ne _ h

theorem foundProc_unused (s : Ptable) (p : Slot) (t : Fin nthread) :
    (((s.foundProc p).proc p).pthreads t).state = .unused := by
  simp [Ptable.foundProc]

theorem ptable_allocthread_cases {result : Option (Fin nthread)}
    (hunused : ∀ t, ((s.proc p).pthreads t).state = .unused)
    (h : s.allocthread p = (result, s')) :
    (s.mem.freelist = [] ∧ result = none ∧ s'.mem.freelist = [] ∧
      (s'.proc p).state = (s.proc p).state) ∨
    ∃ t q, result = some t ∧ kalloc s.mem = (some q, s'.mem) ∧
      (∀ c, c ≠ p → s'.proc c = s.proc c) ∧ ((s'.proc p).pthreads t).kstack = some q ∧
      ∀ u, u ≠ t → ((s'.proc p).pthreads u).state = .unused := by
  unfold Ptable.allocthread at h
  split at h
  · rename_i hnone
    exact absurd (hunused thread0) (firstUnused_none hnone thread0)
  · rename_i t ht
    dsimp only at h
    split at h
    · rename_i m hfail
      cases h
      obtain ⟨hnil, rfl⟩ := kalloc_none hfail
      refine Or.inl ⟨hnil, rfl, hnil, ?_⟩
      simp [Ptable.setThread, Ptable.foundThread]
    · rename_i q m hq
      cases h
      refine Or.inr ⟨t, q, rfl, hq, fun c hc => ?_, ?_, fun u hu => ?_⟩
      · exact (Ptable.setProc_of_ne _ hc).trans (foundThread_of_ne hc)
      · simp [Ptable.setThread]
      · simp only [Ptable.setThread, Ptable.setProc_self]
        rw [update_of_ne hu, foundThread_state s p hu]
        exact hunused u

theorem ptable_allocproc_cases {result : Option (Slot × Fin nthread)}
    (h : s.allocproc = (result, s')) :
    (firstUnused (fun p => (s.proc p).state) = none ∧ result = none ∧ s' = s) ∨
    ∃ np, firstUnused (fun p => (s.proc p).state) = some np ∧
      ((s.mem.freelist = [] ∧ result = none ∧ s'.mem.freelist = [] ∧
        (s'.proc np).state = .embryo) ∨
      ∃ nt q, result = some (np, nt) ∧ kalloc s.mem = (some q, s'.mem) ∧
        (∀ c, c ≠ np → s'.proc c = s.proc c) ∧ ((s'.proc np).pthreads nt).kstack = some q ∧
        ∀ u, u ≠ nt → ((s'.proc np).pthreads u).state = .unused) := by
  unfold Ptable.allocproc at h
  split at h
  · rename_i hnone
    cases h
    exact Or.inl ⟨hnone, rfl, rfl⟩
  · rename_i np hnp
    refine Or.inr ⟨np, hnp, ?_⟩
    split at h
    · rename_i s1 hthread
      cases h
      rcases ptable_allocthread_cases (foundProc_unused s np) hthread with
        ⟨hnil, _, hnil', hstate⟩ | ⟨_, _, hsome, _⟩
      · exact Or.inl ⟨hnil, rfl, hnil', by rw [hstate]; simp [Ptable.foundProc]⟩
      · cases hsome
    · rename_i t s1 hthread
      cases h
      rcases ptable_allocthread_cases (foundProc_unused s np) hthread with
        ⟨_, hnone, _⟩ | ⟨t', q, ht, hq, hothers, hstack, hrest⟩
      · cases hnone
      · cases ht
        refine Or.inr ⟨t, q, rfl, hq, fun c hc => ?_, hstack, hrest⟩
        exact (hothers c hc).trans (foundProc_of_ne hc)

theorem sameStates_undone {s1 : Ptable} {d : PageDir} {m : Mem} {thread : ThreadSlot}
    (hstate : (s.proc np).state = .unused) (hothers : ∀ c, c ≠ np → s1.proc c = s.proc c)
    (hrest : ∀ u, u ≠ nt → ((s1.proc np).pthreads u).state = .unused) (hp : p ≠ np)
    (hthread : thread.state = .unused) :
    SameStates s { ((s1.setProc p { s1.proc p with pgdir := some d }).setThread np nt
      thread).setProc
      np { ((s1.setProc p { s1.proc p with pgdir := some d }).setThread np nt thread).proc np with
        pgdir := none, state := .unused } with mem := m } ↔
      ∀ t, ((s.proc np).pthreads t).state = .unused := by
  have hcleared : ∀ t, (((((s1.setProc p { s1.proc p with pgdir := some d }).setThread np nt
      thread).setProc np { ((s1.setProc p { s1.proc p with pgdir := some d }).setThread np nt
        thread).proc np with pgdir := none, state := .unused }).proc np).pthreads t).state =
      .unused := by
    intro t
    simp only [Ptable.setThread, Ptable.setProc_self]
    by_cases ht : t = nt
    · rw [ht, update_self, hthread]
    · rw [update_of_ne ht, Ptable.setProc_of_ne _ hp.symm, hrest t ht]
  refine ⟨fun hsame t => ((hsame np).2 t).symm.trans (hcleared t), fun hunused c => ?_⟩
  by_cases hc : c = np
  · subst hc
    exact ⟨by simp [hstate], fun t => (hcleared t).trans (hunused t).symm⟩
  · have hproc : ((s1.setProc p { s1.proc p with pgdir := some d }).proc c).state =
        (s.proc c).state ∧ ((s1.setProc p { s1.proc p with pgdir := some d }).proc c).pthreads =
          (s.proc c).pthreads := by
      by_cases hcp : c = p
      · rw [hcp, Ptable.setProc_self, hothers p hp]
        exact ⟨rfl, rfl⟩
      · rw [Ptable.setProc_of_ne _ hcp, hothers c hc]
        exact ⟨rfl, rfl⟩
    simp only [Ptable.setThread]
    rw [Ptable.setProc_of_ne _ hc, Ptable.setProc_of_ne _ hc]
    exact ⟨hproc.1, fun t => by rw [hproc.2]⟩

/-- What a failed call leaves: the stack goes back to the allocator after the
failed copy. -/
theorem forkWith_failed {dup : Mem → PageDir → Nat → Option (Option PageDir × PageDir × Mem)}
    (hp : (s.proc p).state = .runnable) (h : Ptable.forkWith dup s p = some (s', none)) :
    (firstUnused (fun p => (s.proc p).state) = none ∧ s' = s) ∨
    ∃ np, firstUnused (fun p => (s.proc p).state) = some np ∧
      ((s.mem.freelist = [] ∧ s'.mem.freelist = [] ∧ (s'.proc np).state = .embryo) ∨
      ∃ q m src src' m',
        (SameStates s s' ↔ ∀ t, ((s.proc np).pthreads t).state = .unused) ∧
        kalloc s.mem = (some q, m) ∧ dup m src (s.proc p).sz = some (none, src', m') ∧
        kfree m' q = some s'.mem) := by
  unfold Ptable.forkWith at h
  split at h
  · rename_i s1 halloc
    cases h
    rcases ptable_allocproc_cases halloc with
      ⟨hnone, _, rfl⟩ | ⟨np, hnp, ⟨hnil, _, hleft⟩ | ⟨_, _, hsome, _⟩⟩
    · exact Or.inl ⟨hnone, rfl⟩
    · exact Or.inr ⟨np, hnp, Or.inl ⟨hnil, hleft⟩⟩
    · cases hsome
  · rename_i np nt s1 halloc
    rcases ptable_allocproc_cases halloc with
      ⟨_, hnone, _⟩ | ⟨np', hnp, ⟨_, hnone, _⟩ | ⟨nt', q, hsome, hq, hothers, hstack, hrest⟩⟩
    · cases hnone
    · cases hnone
    · cases hsome
      have hstate : (s.proc np).state = .unused := firstUnused_some hnp
      have hne : p ≠ np := by
        rintro rfl
        rw [hp] at hstate
        cases hstate
      split at h
      · cases h
      · rename_i src hsrc
        split at h
        · cases h
        · rename_i src' m hdup
          rw [hothers p hne] at hdup
          rw [hstack] at h
          obtain ⟨m', hfree, hresult⟩ := Option.map_eq_some_iff.mp h
          cases hresult
          exact Or.inr ⟨np, hnp, Or.inr ⟨q, s1.mem, src, src', m,
            sameStates_undone hstate hothers hrest hne rfl, hq, hdup, hfree⟩⟩
        · cases h

theorem forkWith_sameStates {dup : Mem → PageDir → Nat → Option (Option PageDir × PageDir × Mem)}
    (hp : (s.proc p).state = .runnable) (h : Ptable.forkWith dup s p = some (s', none)) :
    SameStates s s' ↔ StackLeft s := by
  unfold StackLeft
  rcases forkWith_failed hp h with
    ⟨hnone, rfl⟩ | ⟨np, hnp, ⟨hnil, _, hembryo⟩ | ⟨q, m, _, _, _, hsame, hq, _⟩⟩
  · rw [hnone]
    exact ⟨fun _ => nofun, fun _ _ => ⟨rfl, fun _ => rfl⟩⟩
  · -- the slot that was found stays as it is
    refine ⟨fun hsame => ?_, fun hleft => absurd hnil (hleft np hnp).1⟩
    have hstate := (hsame np).1
    rw [hembryo, firstUnused_some hnp] at hstate
    cases hstate
  · obtain ⟨rest, hfree, _⟩ := kalloc_some hq
    rw [hsame, hnp, hfree]
    constructor
    · intro hunused other hother
      cases hother
      exact ⟨List.cons_ne_nil q rest, hunused⟩
    · exact fun hleft => (hleft np rfl).2

end

/-! ### The free list -/

section

variable {m m' : Mem} {d d' : PageDir} {v q n : Nat}

theorem listed_kalloc (h : kalloc m = (some q, m')) :
    listed m.freelist = listed m'.freelist + Pi.single q 1 := by
  obtain ⟨rest, hfree, rfl⟩ := kalloc_some h
  rw [hfree, listed_cons]

theorem listed_kfree (h : kfree m q = some m') :
    listed m'.freelist = listed m.freelist + Pi.single q 1 := by
  rw [kfree_some h]
  exact listed_cons q _

theorem listed_kallocMany {items : List Nat} (h : kallocMany n m = (some items, m')) :
    listed m.freelist = listed m'.freelist + listed items := by
  induction n generalizing m items with
  | zero =>
    cases h
    rw [listed_nil, add_zero]
  | succ n ih =>
    unfold kallocMany at h
    split at h
    · cases h
    · rename_i x m1 hx
      split at h
      · cases h
      · rename_i rest m2 hrest
        cases h
        rw [listed_kalloc hx, ih hrest, listed_cons, add_assoc]

theorem listed_kfreeMany {items : List Nat} (h : kfreeMany items m = some m') :
    listed m'.freelist = listed m.freelist + listed items := by
  induction items generalizing m with
  | nil =>
    cases h
    rw [listed_nil, add_zero]
  | cons x rest ih =>
    obtain ⟨m1, hx, hrest⟩ := Option.bind_eq_some_iff.mp h
    rw [ih hrest, listed_kfree hx, listed_cons, add_assoc, add_comm (Pi.single x 1)]

def held (m : Mem) (d : PageDir) : Nat → ℕ :=
  listed m.freelist + d.own + d.refs

theorem held_setupkvm (h : setupkvm m = (some d, m')) : held m' d = listed m.freelist := by
  have hrefs := (fresh_setupkvm h).refs
  rcases setupkvm_cases h with ⟨hnone, _⟩ | ⟨hnone, _⟩ | ⟨q, m1, tables, hq, hmany, hsome⟩
  · cases hnone
  · cases hnone
  · cases hsome
    have hempty : tally updes (fun i => ((fun _ => none : Nat → Option PageTable) i).map
        PageTable.page) = 0 := tally_none fun _ _ => rfl
    rw [held, hrefs, add_zero, PageDir.own, hempty, add_zero, listed_kalloc hq,
      listed_kallocMany hmany, add_assoc, add_comm (Pi.single q 1)]

theorem Unmaps.listed {last : Nat} (h : Unmaps kfree last v d m d' m') (hlast : last ≤ upages) :
    listed m'.freelist + d'.refs = listed m.freelist + d.refs := by
  induction h with
  | done => rfl
  | skip _ _ _ ih | absent _ _ _ _ ih => exact ih
  | page hv hentry hrelease _ ih =>
    rw [ih, listed_kfree hrelease, refs_setPte_zero (by omega) hentry, add_assoc,
      add_comm (Pi.single _ 1)]

theorem listed_freevm (h : freevm m d = some m') : listed m'.freelist = held m d := by
  obtain ⟨d1, m1, hunmaps, hmany⟩ := freevm_cases h
  have hpages := hunmaps.listed le_rfl
  rw [hunmaps.refs_empty, add_zero] at hpages
  rw [listed_kfreeMany hmany, listed_tables, hunmaps.own, hpages, held]
  exact add_right_comm ..

theorem own_walkpgdir (hv : v < upages) (h : walkpgdir m d v = (true, d', m')) :
    listed m'.freelist + d'.own = listed m.freelist + d.own := by
  rcases walkpgdir_cases h with ⟨_, rfl, rfl, _⟩ | ⟨hfalse, _⟩ | ⟨x, _, htable, hx, rfl⟩
  · rfl
  · cases hfalse
  · rw [own_addTable htable hv, listed_kalloc hx, add_assoc, add_comm d.own]

theorem own_mapPage {perm : Flags} (hv : v < upages)
    (h : mapPage m d v q perm = some (true, d', m')) :
    listed m'.freelist + d'.own = listed m.freelist + d.own := by
  unfold mapPage at h
  split at h
  · cases h
  · rename_i d1 m1 hwalk
    split at h
    · cases h
    · split at h
      · cases h
      · cases h
        rw [own_setPte]
        exact own_walkpgdir hv hwalk

theorem held_mapPage {perm : Flags} (hv : v < upages)
    (h : mapPage m d v q perm = some (true, d', m')) :
    held m' d' = held m d + Pi.single q 1 := by
  rcases mapPage_cases h with ⟨_, hinstall⟩ | ⟨hfalse, _⟩
  · rw [held, held, own_mapPage hv h, add_assoc,
      refs_install hv hinstall.absent hinstall.entry hinstall.others, ← add_assoc, ← add_assoc]
  · cases hfalse

/-- Where a copy fails, the free pages have gone to the pages before `u` and their tables,
and where the table of page `u` fails, its page is lost. -/
theorem held_copyLoop {src : PageDir} (hv : v + n ≤ upages) (hd : Scanned d v)
    (h : copyLoop src n v d m = some (false, d', m')) :
    ∃ u, v ≤ u ∧
      ((held m' d' = held m d ∧ m.freelist.length + v + tablesFor v = u + tablesFor u) ∨
        ∃ q, held m' d' + Pi.single q 1 = held m d ∧ u % nptentries = 0 ∧
          m.freelist.length + v + tablesFor v = u + tablesFor u + 1) := by
  induction n generalizing v d m with
  | zero => cases h
  | succ n ih =>
    unfold copyLoop at h
    split at h
    · cases h
    · rename_i pte hlookup
      split at h
      · split at h
        · rename_i m1 hfail
          cases h
          obtain ⟨hnil, rfl⟩ := kalloc_none hfail
          exact ⟨v, le_rfl, Or.inl ⟨rfl, by rw [hnil, List.length_nil, Nat.zero_add]⟩⟩
        · rename_i q m1 hq
          have hlist : listed m.freelist = listed m1.freelist + Pi.single q 1 := listed_kalloc hq
          have hlength : m.freelist.length = m1.freelist.length + 1 := by
            obtain ⟨rest, hfree, rfl⟩ := kalloc_some hq
            rw [hfree]
            rfl
          simp only [mappages_page] at h
          split at h
          · cases h
          · rename_i d1 m2 hmap
            cases h
            rcases mapPage_cases hmap with ⟨htrue, _⟩ | ⟨_, rfl, htable, hfail⟩
            · cases htrue
            · -- the page is taken and the table is not there
              obtain ⟨hnil, rfl⟩ := kalloc_none hfail
              have hempty : m1.freelist.length = 0 := congrArg List.length hnil
              refine ⟨v, le_rfl, Or.inr ⟨q, ?_, hd.first htable, by omega⟩⟩
              funext r
              simp only [held, hlist, Mem.setFrame, setCounter_freelist, Pi.add_apply]
              omega
          · rename_i d1 m2 hmap
            rcases mapPage_cases hmap with ⟨_, hinstall⟩ | ⟨hfalse, _⟩
            · have hstep : held m2 d1 = held m d := by
                rw [held_mapPage (by omega) hmap]
                funext r
                simp only [held, hlist, Mem.setFrame, setCounter_freelist, Pi.add_apply]
                omega
              have hnext : m2.freelist.length + tablesFor (v + 1) =
                  m1.freelist.length + tablesFor v := hinstall.length hd
              obtain ⟨u, hu, hcases⟩ := ih (by omega) (hinstall.scanned hd) h
              rw [hstep] at hcases
              refine ⟨u, by omega, hcases.imp (fun hkept => ⟨hkept.1, by omega⟩) ?_⟩
              rintro ⟨q, hlost, hmod, hlen⟩
              exact ⟨q, hlost, hmod, by omega⟩
            · cases hfalse
      · cases h

theorem setupkvm_none_freelist (h : setupkvm m = (none, m')) : m'.freelist = [] := by
  have hmany : ∀ {n m m'}, kallocMany n m = (none, m') → m'.freelist = [] := by
    intro n
    induction n with
    | zero => exact nofun
    | succ n ih =>
      intro m m' hmany
      unfold kallocMany at hmany
      split at hmany
      · rename_i hfail
        cases hmany
        obtain ⟨hnil, rfl⟩ := kalloc_none hfail
        exact hnil
      · split at hmany
        · rename_i hrest
          cases hmany
          exact ih hrest
        · cases hmany
  rcases setupkvm_cases h with ⟨_, _, _, _, hfail⟩ | ⟨_, hfail⟩ | ⟨_, _, _, _, _, hsome⟩
  · exact hmany hfail
  · obtain ⟨hnil, rfl⟩ := kalloc_none hfail
    exact hnil
  · cases hsome

theorem listed_injective_nil {items : List Nat} (h : listed ([] : List Nat) = listed items) :
    items = [] := by
  refine List.eq_nil_iff_forall_not_mem.mpr fun q hq => ?_
  have hcount : ([] : List Nat).count q = items.count q := congrFun h q
  rw [List.count_nil] at hcount
  exact absurd (List.count_pos_iff.mpr hq) (by omega)

theorem copyuvm_failed_listed {src : PageDir} {sz : Nat} (hsz : sz ≤ kernbase)
    (h : copyuvm m src sz = some (none, m')) : listed m'.freelist = listed m.freelist ↔
      m.freelist = [] ∨ kernelTables + 1 ≤ m.freelist.length ∧
        (m.freelist.length - (kernelTables + 1)) % (nptentries + 1) ≠ 1 := by
  unfold copyuvm at h
  split at h
  · rename_i m1 hsetup
    cases h
    have hshort : ¬ kernelTables + 1 ≤ m.freelist.length := by
      intro henough
      obtain ⟨d, m2, hsome⟩ := setupkvm_enough henough
      rw [hsetup] at hsome
      cases hsome
    rw [setupkvm_none_freelist hsetup]
    refine ⟨fun hlisted => Or.inl (listed_injective_nil hlisted), fun hcond => ?_⟩
    rw [hcond.resolve_right fun henough => hshort henough.1]
  · rename_i d0 m0 hsetup
    have hlength := setupkvm_length hsetup
    have hscanned : Scanned d0 0 := by simp [Scanned, (fresh_setupkvm hsetup).empty]
    have hzero : tablesFor 0 = 0 := by decide
    have hnonempty : m.freelist ≠ [] := by
      intro hnil
      rw [hnil, List.length_nil] at hlength
      omega
    split at h
    · cases h
    · cases h
    · rename_i d1 m1 hloop
      obtain ⟨m2, hfree, hresult⟩ := Option.map_eq_some_iff.mp h
      cases hresult
      rw [listed_freevm hfree, ← held_setupkvm hsetup]
      obtain ⟨u, _, ⟨hkept, hlen⟩ | ⟨q, hlost, hu, hlen⟩⟩ :=
        held_copyLoop (by simpa using pages_le_upages hsz) hscanned hloop
      · refine ⟨fun _ => Or.inr ⟨by omega, ?_⟩, fun _ => hkept⟩
        simp only [tablesFor, nptentries] at hlen hzero ⊢
        omega
      · -- all the pages are in full tables, and one is left
        refine ⟨fun hkept => ?_, fun hcond => ?_⟩
        · have hone := congrFun hlost q
          simp only [hkept, Pi.add_apply, Pi.single_eq_same] at hone
          omega
        · have hmod := (hcond.resolve_left hnonempty).2
          simp only [tablesFor, nptentries] at hu hlen hmod hzero
          omega

end

/-- A `fork` or `cow_fork` that returns -1 leaves the states of all slots exactly when there
was a page for the kernel stack and the slot had no old threads. A `fork` leaves the free list
exactly when `setupkvm` got no page or all of its pages and the failing allocation is for a
user page. -/
theorem failed_fork_leaks_nothing {s s' : Ptable} {p : Slot} (hp : (s.proc p).state = .runnable)
    (hsz : (s.proc p).sz ≤ kernbase) :
    (s.fork p = some (s', none) → (SameStates s s' ↔ StackLeft s) ∧
      (s'.mem.freelist.Perm s.mem.freelist ↔ PagesKept s)) ∧
    (s.cowFork p = some (s', none) → (SameStates s s' ↔ StackLeft s)) := by
  refine ⟨fun hcall => ⟨forkWith_sameStates hp hcall, ?_⟩, forkWith_sameStates hp⟩
  have hperm : s'.mem.freelist.Perm s.mem.freelist ↔
      listed s'.mem.freelist = listed s.mem.freelist :=
    List.perm_iff_count.trans funext_iff.symm
  unfold PagesKept
  rw [hperm]
  rcases forkWith_failed hp hcall with
    ⟨hnone, rfl⟩ | ⟨np, hnp, ⟨hnil, hnil', _⟩ | ⟨q, m, src, src', m', _, hq, hdup, hfree⟩⟩
  · exact ⟨fun _ => Or.inl hnone, fun _ => rfl⟩
  · rw [hnil, hnil']
    exact ⟨fun _ => Or.inr (Or.inl (Nat.zero_le 1)), fun _ => rfl⟩
  · obtain ⟨⟨result, m1⟩, hcopy, hresult⟩ := Option.map_eq_some_iff.mp hdup
    cases hresult
    have hlength : s.mem.freelist.length = m.freelist.length + 1 := by
      obtain ⟨rest, hrest, rfl⟩ := kalloc_some hq
      rw [hrest]
      rfl
    rw [listed_kfree hfree, listed_kalloc hq, add_left_inj, copyuvm_failed_listed hsz hcopy,
      hlength, ← List.length_eq_zero_iff, Nat.add_sub_add_right]
    simp only [hnp, reduceCtorEq, false_or]
    refine or_congr ?_ (and_congr_left' ?_)
    · omega
    · omega

def forkTable (free : Nat) : Ptable :=
  let table : PageTable :=
    ⟨2001, fun j => if j < 3 then ⟨2010 + j, true, userFlags⟩ else Pte.zero⟩
  let dir : PageDir := ⟨2000, fun i => if i = 0 then some table else none, []⟩
  ⟨fun p =>
    if p = slot0 then
      ⟨.runnable, 1, 3 * pgsize, some dir, none, fun t =>
        if t = thread0 then ⟨.running, 1, some 2200⟩ else ⟨.unused, 0, none⟩⟩
    else ⟨.unused, 0, 0, none, none, fun _ => ⟨.unused, 0, none⟩⟩,
    2, 2, ⟨1024, List.range' 3000 free, fun _ => 1, fun _ => zeroPage, false⟩⟩

theorem stackLeft_forkTable {free : Nat} (h : 0 < free) : StackLeft (forkTable free) := by
  intro np hnp
  have hstate := firstUnused_some hnp
  have hne : np ≠ slot0 := by
    rintro rfl
    simp [forkTable] at hstate
  refine ⟨?_, fun t => by simp [forkTable, hne]⟩
  simpa [forkTable] using Nat.ne_of_gt h

/-- With 69 free pages the third user page of the child fails, with one page its directory. -/
theorem failed_fork_leaks_nothing_third_page :
    (∃ s', (forkTable 69).fork slot0 = some (s', none) ∧ SameStates (forkTable 69) s' ∧
      s'.mem.freelist.Perm (forkTable 69).mem.freelist) ∧
    ∃ s', (forkTable 1).fork slot0 = some (s', none) ∧ SameStates (forkTable 1) s' ∧
      s'.mem.freelist.Perm (forkTable 1).mem.freelist := by
  have hkept : ∀ free, 0 < free → ((forkTable free).fork slot0).map Prod.snd = some none →
      PagesKept (forkTable free) →
      ∃ s', (forkTable free).fork slot0 = some (s', none) ∧ SameStates (forkTable free) s' ∧
        s'.mem.freelist.Perm (forkTable free).mem.freelist := by
    intro free hpos hfacts hpages
    obtain ⟨⟨s', _⟩, hcall, rfl⟩ := Option.map_eq_some_iff.mp hfacts
    have hsz : ((forkTable free).proc slot0).sz ≤ kernbase := by
      simp [forkTable, pgsize, kernbase]
    obtain ⟨hsame, hperm⟩ := (failed_fork_leaks_nothing (s := forkTable free) rfl hsz).1 hcall
    exact ⟨s', hcall, hsame.mpr (stackLeft_forkTable hpos), hperm.mpr hpages⟩
  refine ⟨hkept 69 (by decide) (by decide +kernel) (Or.inr (Or.inr ?_)),
    hkept 1 (by decide) (by decide +kernel) (Or.inr (Or.inl (by decide)))⟩
  decide +kernel

/-- Without a page for the kernel stack the slot stays `EMBRYO`, after `fork` and
after `cow_fork`. With 40 free pages the 39 that `setupkvm` has taken are lost. -/
theorem failed_fork_leaks_slot_and_pages : ((forkTable 0).proc slot1).state = .unused ∧
    (∃ s', (forkTable 0).fork slot0 = some (s', none) ∧ (s'.proc slot1).state = .embryo) ∧
    (∃ s', (forkTable 0).cowFork slot0 = some (s', none) ∧ (s'.proc slot1).state = .embryo) ∧
    ∃ s', (forkTable 40).fork slot0 = some (s', none) ∧ s'.mem.freelist.length = 1 := by
  decide +kernel

end Xv6.Vm
