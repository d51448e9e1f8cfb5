import Mathlib.Data.List.FinRange
import Xv6.Basic
import Xv6.Lib.Transition

/-! `sleep`, `wakeup` and the scheduler for any use of them: any locks, any
channels with a condition each, and threads that run arbitrary code under the
rules of `sleep`. A waiter tests the condition of its channel under the lock of
the channel, in a loop; a thread makes a condition true only under that lock,
and from then on it owes a `wakeup` of the channel. The lock of a channel may be
`ptable.lock` itself. -/
namespace Xv6.Sleep
open Function (update update_self update_of_ne update_eq_self)
open Transition

/-- The spinlocks: `ptable.lock` and the others. -/
inductive Lk (L : Type) where
  | ptable
  | other (l : L)
deriving DecidableEq

/-- Positions at which a thread holds no lock on behalf of the call it is in. -/
inductive Code (C : Type) where
  | run
  /-- In `sleep`, before `acquire(lk)`. -/
  | reacquire (c : C)
  /-- In `wakeup`, before `acquire(&ptable.lock)`. -/
  | wakeup (c : C)
deriving DecidableEq

/-- The two callers of `sched`. -/
inductive Resume (C : Type) where
  | yield (k : Code C)
  | sleep (c : C)
deriving DecidableEq

/-- Where one of the threads `Fin m` is. -/
inductive Pc (m : Nat) (C : Type) where
  | code (k : Code C)
  /-- The head of the waiting loop: the test of the condition. -/
  | loop (c : C)
  /-- In `sleep`, before `acquire(&ptable.lock)`. -/
  | sleep (c : C)
  /-- In `sleep`, before `release(lk)`. -/
  | sleepRelease (c : C)
  /-- In `sleep`, before the stores to `chan` and `state`. -/
  | sleepMark (c : C)
  /-- In `sleep`, before `release(&ptable.lock)`. -/
  | sleepWoken (c : C)
  /-- In `wakeup1`, with the threads still to look at; `release` tells `wakeup`
  from a call with `ptable.lock` held. -/
  | wakeup1 (c : C) (rest : List (Fin m)) (release : Bool)
  | yield (k : Code C)
  | yieldMark (k : Code C)
  | sched (resume : Resume C)
  /-- Not on a CPU. -/
  | switched (resume : Resume C)
  | resumed (resume : Resume C)
deriving DecidableEq

inductive Cpu (m : Nat) where
  | idle
  /-- In the scan of `scheduler`, which holds `ptable.lock`. -/
  | scheduler
  | run (t : Fin m)
deriving DecidableEq

/-- Who can hold a lock: a thread, or the scheduler of a CPU. -/
inductive Agent (n m : Nat) where
  | thread (t : Fin m)
  | cpu (c : Fin n)
deriving DecidableEq

/-- `ncli` counts the locks that a thread holds, as `pushcli` does. `owes` is
not kernel data: a thread has made the condition true and has not finished a
`wakeup` since. -/
structure State (n m : Nat) (L C : Type) where
  cond : C → Bool
  lock : Lk L → Option (Agent n m)
  ncli : Fin m → Nat
  state : Fin m → ProcState
  chan : Fin m → Option C
  pc : Fin m → Pc m C
  cpu : Fin n → Cpu m
  owes : Fin m → C → Bool

variable {n m : Nat} {L C : Type}

def boot (cond : C → Bool) (ready : Fin m → Bool) : State n m L C where
  cond := cond
  lock := fun _ => none
  ncli := fun _ => 1
  state := fun t => if ready t then .runnable else .unused
  chan := fun _ => none
  pc := fun _ => .switched (.yield .run)
  cpu := fun _ => .idle
  owes := fun _ _ => false

section

variable [DecidableEq L] [DecidableEq C]

def State.goto (s : State n m L C) (t : Fin m) (pc : Pc m C) : State n m L C :=
  { s with pc := update s.pc t pc }

def State.setState (s : State n m L C) (t : Fin m) (state : ProcState) : State n m L C :=
  { s with state := update s.state t state }

def State.take (s : State n m L C) (t : Fin m) (l : Lk L) : State n m L C :=
  { s with
    lock := update s.lock l (some (.thread t))
    ncli := update s.ncli t (s.ncli t + 1) }

def State.drop (s : State n m L C) (t : Fin m) (l : Lk L) : State n m L C :=
  { s with
    lock := update s.lock l none
    ncli := update s.ncli t (s.ncli t - 1) }

def wakeTurn (s : State n m L C) (u : Fin m) (c : C) : State n m L C :=
  if s.state u = .sleeping ∧ s.chan u = some c then s.setState u .runnable else s

/-- The end of `wakeup1`: the thread has paid what it owed. -/
def State.paid (s : State n m L C) (t : Fin m) (c : C) : State n m L C :=
  { s with owes := update s.owes t (update (s.owes t) c false) }

/-- `swtch` from a thread to the scheduler of its CPU, which goes on with
`ptable.lock` held. -/
def swtch (s : State n m L C) (c : Fin n) (t : Fin m) (resume : Resume C) : State n m L C :=
  { s with
    lock := update s.lock .ptable (some (.cpu c))
    cpu := update s.cpu c .scheduler }.goto t (.switched resume)

variable (lk : C → Lk L)

def threadStep (s : State n m L C) (cpu : Fin n) (t : Fin m) : Pc m C → Option (State n m L C)
  | .code .run => none
  | .code (.reacquire c) =>
    if s.lock (lk c) = none then some ((s.take t (lk c)).goto t (.loop c)) else none
  | .code (.wakeup c) =>
    if s.lock .ptable = none then
      some ((s.take t .ptable).goto t (.wakeup1 c (List.finRange m) true))
    else none
  | .loop c =>
    if s.cond c then some (s.goto t (.code .run))
    else some (s.goto t (if lk c = Lk.ptable then .sleepMark c else .sleep c))
  | .sleep c =>
    if s.lock .ptable = none then some ((s.take t .ptable).goto t (.sleepRelease c)) else none
  | .sleepRelease c => some ((s.drop t (lk c)).goto t (.sleepMark c))
  | .sleepMark c =>
    some ({ s.setState t .sleeping with
      chan := update s.chan t (some c) }.goto t (.sched (.sleep c)))
  | .sleepWoken c => some ((s.drop t .ptable).goto t (.code (.reacquire c)))
  | .wakeup1 c (u :: rest) release => some ((wakeTurn s u c).goto t (.wakeup1 c rest release))
  | .wakeup1 c [] true => some (((s.paid t c).drop t .ptable).goto t (.code .run))
  | .wakeup1 c [] false => some ((s.paid t c).goto t (.code .run))
  | .yield k =>
    if s.lock .ptable = none then some ((s.take t .ptable).goto t (.yieldMark k)) else none
  | .yieldMark k => some ((s.setState t .runnable).goto t (.sched (.yield k)))
  | .sched resume =>
    -- panic("sched locks")
    if s.ncli t = 1 then some (swtch s cpu t resume) else none
  | .switched _ => none
  | .resumed (.yield k) => some ((s.drop t .ptable).goto t (.code k))
  | .resumed (.sleep c) =>
    some ({ s with chan := update s.chan t none }.goto t
      (if lk c = Lk.ptable then .loop c else .sleepWoken c))

inductive Cmd (m : Nat) (L C : Type) where
  | go
  | acquire (l : Lk L)
  | release (l : Lk L)
  /-- A change of the condition of a channel. -/
  | set (c : C) (value : Bool)
  /-- A thread that holds the lock of the channel enters the waiting loop. -/
  | wait (c : C)
  | wakeup (c : C)
  /-- `wakeup1` by a thread that holds `ptable.lock`. -/
  | wakeup1 (c : C)
  | tick
  | pick (t : Fin m)

structure Act (n m : Nat) (L C : Type) where
  cpu : Fin n
  cmd : Cmd m L C

/-- A step of the code outside `sleep` and `wakeup`. A condition becomes true
only under the lock of its channel. -/
def codeStep (s : State n m L C) (t : Fin m) : Cmd m L C → Option (State n m L C)
  | .acquire l => if s.lock l = none then some (s.take t l) else none
  | .release l => if s.lock l = some (.thread t) then some (s.drop t l) else none
  | .set c false => some { s with cond := update s.cond c false }
  | .set c true =>
    if s.lock (lk c) = some (.thread t) then
      some { s with
        cond := update s.cond c true
        owes := update s.owes t
          (update (s.owes t) c (s.owes t c || !s.cond c)) }
    else none
  | .wait c => if s.lock (lk c) = some (.thread t) then some (s.goto t (.loop c)) else none
  | .wakeup c => some (s.goto t (.code (.wakeup c)))
  | .wakeup1 c =>
    if s.lock .ptable = some (.thread t) then
      some (s.goto t (.wakeup1 c (List.finRange m) false))
    else none
  | _ => none

/-- `t->state = RUNNING` and `swtch` to the thread, which then holds
`ptable.lock`. -/
def pick (s : State n m L C) (c : Fin n) (t : Fin m) (resume : Resume C) : State n m L C :=
  { s.setState t .running with
    lock := update s.lock .ptable (some (.thread t))
    cpu := update s.cpu c (.run t) }.goto t (.resumed resume)

def step (s : State n m L C) (a : Act n m L C) : Option (State n m L C) :=
  match s.cpu a.cpu with
  | .idle =>
    match a.cmd with
    | .go =>
      if s.lock .ptable = none then
        some { s with
          lock := update s.lock .ptable (some (.cpu a.cpu))
          cpu := update s.cpu a.cpu .scheduler }
      else none
    | _ => none
  | .scheduler =>
    match a.cmd with
    | .go =>
      some { s with
        lock := update s.lock .ptable none
        cpu := update s.cpu a.cpu .idle }
    | .pick t =>
      match s.pc t with
      | .switched resume =>
        if s.state t = .runnable then some (pick s a.cpu t resume) else none
      | _ => none
    | _ => none
  | .run t =>
    match a.cmd with
    | .go => threadStep lk s a.cpu t (s.pc t)
    | .tick =>
      -- a spinlock keeps interrupts off
      match s.pc t with
      | .code k => if s.ncli t = 0 then some (s.goto t (.yield k)) else none
      | _ => none
    | cmd => if s.pc t = .code .run then codeStep lk s t cmd else none

end

variable {lk : C → Lk L} {s s' : State n m L C} {t u : Fin m} {c : C} {pc : Pc m C} {l : Lk L}

def Pc.ptable : Pc m C → Prop
  | .sleepRelease _ | .sleepMark _ | .sleepWoken _ | .wakeup1 _ _ _ => True
  | .yieldMark _ | .sched _ | .resumed _ => True
  | _ => False

/-- The waiter's positions under the lock of its channel. -/
def Pc.waiting (c : C) : Pc m C → Prop
  | .loop d | .sleep d | .sleepRelease d => d = c
  | _ => False

def State.sleepsOn (s : State n m L C) (t : Fin m) (c : C) : Prop :=
  s.state t = .sleeping ∧ s.chan t = some c

attribute [local simp] Pc.waiting State.goto Pc.ptable State.sleepsOn State.setState State.paid
  State.drop boot

/-- The thread has found the condition false and goes to sleep, or sleeps. -/
def State.waits (s : State n m L C) (t : Fin m) (c : C) : Prop :=
  s.pc t = .sleepMark c ∨ s.sleepsOn t c

/-- A thread owes a wakeup of the channel and it has not come to `t` yet. -/
def State.due (s : State n m L C) (u : Fin m) (c : C) (t : Fin m) : Prop :=
  s.owes u c = true ∧ ∀ rest release, s.pc u = .wakeup1 c rest release → t ∈ rest

structure Inv (lk : C → Lk L) (s : State n m L C) : Prop where
  ptable : ∀ t, (s.pc t).ptable → s.lock .ptable = some (.thread t)
  scheduler : ∀ c, s.cpu c = .scheduler → s.lock .ptable = some (.cpu c)
  waiting : ∀ t c, (s.pc t).waiting c → s.lock (lk c) = some (.thread t)
  test : ∀ t c, s.pc t = .sleep c ∨ s.pc t = .sleepRelease c → lk c ≠ Lk.ptable ∧ s.cond c = false
  owed : ∀ t c, s.waits t c → s.cond c = false ∨ ∃ u, s.due u c t

variable {cpu : Fin n}

theorem inv_boot (cond : C → Bool) (ready : Fin m → Bool) :
    Inv lk (boot cond ready : State n m L C) where
  ptable := by simp
  scheduler := by simp
  waiting := by simp
  test := by simp
  owed := by
    intro t c hwaits
    simp [State.waits] at hwaits

/-- One thread moves. The others keep their locks, what becomes true is owed by
the thread, and what it owed it still owes to everybody who waits. -/
theorem Inv.move (h : Inv lk s) (hpc : s'.pc = update s.pc t pc)
    (hlock : ∀ l u, u ≠ t → s.lock l = some (.thread u) → s'.lock l = some (.thread u))
    (hscheduler : ∀ d, s'.cpu d = .scheduler → s'.lock .ptable = some (.cpu d))
    (hptable : pc.ptable → s'.lock .ptable = some (.thread t))
    (hwaiting : ∀ c, pc.waiting c → s'.lock (lk c) = some (.thread t))
    (hmade : ∀ c, s.cond c = false → s'.cond c = true →
      s.lock (lk c) = some (.thread t) ∧ s'.due t c = fun _ => True)
    (howes : ∀ u c, u ≠ t → s'.owes u c = s.owes u c)
    (hdue : ∀ u c, s'.waits u c → s.due t c u → s'.due t c u)
    (htest : ∀ c, pc = .sleep c ∨ pc = .sleepRelease c → lk c ≠ Lk.ptable ∧ s'.cond c = false)
    (hwaits : ∀ u c, s'.waits u c → s.waits u c ∨ s'.cond c = false) : Inv lk s' where
  ptable := by
    intro u hu
    by_cases hut : u = t
    · subst hut
      rw [hpc, update_self] at hu
      exact hptable hu
    · rw [hpc, update_of_ne hut] at hu
      exact hlock _ u hut (h.ptable u hu)
  scheduler := hscheduler
  waiting := by
    intro u c hu
    by_cases hut : u = t
    · subst hut
      rw [hpc, update_self] at hu
      exact hwaiting c hu
    · rw [hpc, update_of_ne hut] at hu
      exact hlock _ u hut (h.waiting u c hu)
  test := by
    intro u c hu
    by_cases hut : u = t
    · subst hut
      rw [hpc, update_self] at hu
      exact htest c hu
    · rw [hpc, update_of_ne hut] at hu
      obtain ⟨hlk, hfalse⟩ := h.test u c hu
      refine ⟨hlk, Bool.eq_false_iff.mpr fun htrue => ?_⟩
      -- the waiter has the lock that the change needs
      have hheld : s.lock (lk c) = some (.thread u) :=
        h.waiting u c (by rcases hu with hu | hu <;> rw [hu] <;> rfl)
      have hsame := hheld.symm.trans (hmade c hfalse htrue).1
      exact hut (Agent.thread.inj (Option.some.inj hsame))
  owed := by
    intro u c hu
    by_cases hcond : s'.cond c = true
    · right
      rcases hwaits u c hu with hold | hfalse
      · rcases h.owed u c hold with hfalse | ⟨v, hv⟩
        · exact ⟨t, by rw [(hmade c hfalse hcond).2]; trivial⟩
        · by_cases hvt : v = t
          · subst hvt
            exact ⟨v, hdue u c hu hv⟩
          · refine ⟨v, by rw [howes v c hvt]; exact hv.1, fun rest release hv' => ?_⟩
            rw [hpc, update_of_ne hvt] at hv'
            exact hv.2 rest release hv'
      · exact absurd hcond (by simp [hfalse])
    · exact .inl (Bool.eq_false_iff.mpr hcond)

theorem Inv.walk (h : Inv lk s) (hpc : s'.pc = update s.pc t pc)
    (hlock : ∀ l u, u ≠ t → s.lock l = some (.thread u) → s'.lock l = some (.thread u))
    (hscheduler : ∀ d, s'.cpu d = .scheduler → s'.lock .ptable = some (.cpu d))
    (hptable : pc.ptable → s'.lock .ptable = some (.thread t))
    (hwaiting : ∀ c, pc.waiting c → s'.lock (lk c) = some (.thread t))
    (hcond : s'.cond = s.cond) (howes : s'.owes = s.owes)
    (hdue : ∀ u c, s.due t c u → ∀ rest release, pc = .wakeup1 c rest release → u ∈ rest)
    (htest : ∀ c, pc = .sleep c ∨ pc = .sleepRelease c → lk c ≠ Lk.ptable ∧ s.cond c = false)
    (hmark : ∀ c, pc = .sleepMark c → s.cond c = false)
    (hsleeps : ∀ u c, s'.sleepsOn u c → s.sleepsOn u c) : Inv lk s' := by
  refine h.move hpc hlock hscheduler hptable hwaiting ?_ ?_ ?_ ?_ ?_
  · intro c hfalse htrue
    rw [hcond, hfalse] at htrue
    cases htrue
  · intro u c _
    rw [howes]
  · intro u c _ hdue'
    refine ⟨by rw [howes]; exact hdue'.1, fun rest release hpc' => ?_⟩
    rw [hpc, update_self] at hpc'
    exact hdue u c hdue' rest release hpc'
  · intro c hpc'
    rw [hcond]
    exact htest c hpc'
  · rintro u c (hu | hu)
    · by_cases hut : u = t
      · subst hut
        rw [hpc, update_self] at hu
        exact .inr (by rw [hcond]; exact hmark c hu)
      · rw [hpc, update_of_ne hut] at hu
        exact .inl (.inl hu)
    · exact .inl (.inr (hsleeps u c hu))

theorem Inv.stay (h : Inv lk s) (hpc : s'.pc = update s.pc t pc)
    (hlock : s'.lock = s.lock) (hcpu : s'.cpu = s.cpu) (hcond : s'.cond = s.cond)
    (howes : s'.owes = s.owes) (hptable : pc.ptable → s.lock .ptable = some (.thread t))
    (hwaiting : ∀ c, pc.waiting c → s.lock (lk c) = some (.thread t))
    (hdue : ∀ u c, ∀ rest release, pc = .wakeup1 c rest release → u ∈ rest)
    (htest : ∀ c, pc = .sleep c ∨ pc = .sleepRelease c → lk c ≠ Lk.ptable ∧ s.cond c = false)
    (hmark : ∀ c, pc = .sleepMark c → s.cond c = false)
    (hsleeps : ∀ u c, s'.sleepsOn u c → s.sleepsOn u c) : Inv lk s' := by
  refine h.walk hpc ?_ ?_ ?_ ?_ hcond howes (fun u c _ => hdue u c) htest hmark hsleeps
  · intro l' u _ hu
    rwa [hlock]
  · intro d hd
    rw [hlock]
    exact h.scheduler d (by rwa [hcpu] at hd)
  · intro hpc'
    rw [hlock]
    exact hptable hpc'
  · intro c hpc'
    rw [hlock]
    exact hwaiting c hpc'

theorem sleepsOn_of_setState {state : ProcState} (hne : state ≠ .sleeping)
    (h : (s.setState t state).sleepsOn u c) : s.sleepsOn u c := by
  by_cases hut : u = t
  · subst hut
    exact absurd (by simpa using h.1) hne
  · simpa [hut] using h

theorem Inv.only (h : Inv lk s) (ht : (s.pc t).ptable) (hu : (s.pc u).ptable) : u = t := by
  have hsame := (h.ptable u hu).symm.trans (h.ptable t ht)
  exact Agent.thread.inj (Option.some.inj hsame)

theorem inv_sleepMark (h : Inv lk s) (hpc : s.pc t = .sleepMark c) :
    Inv lk ({ s.setState t .sleeping with
      chan := update s.chan t (some c) }.goto t (.sched (.sleep c))) := by
  have htable := h.ptable t (by rw [hpc]; trivial)
  refine h.move rfl (fun _ _ _ hu => hu) h.scheduler (fun _ => htable) (by simp) ?_
    (fun _ _ _ => rfl) ?_ (by simp) ?_
  · intro d hfalse htrue
    exact absurd htrue (by simpa using hfalse)
  · intro u d _ hdue
    exact ⟨hdue.1, by simp⟩
  · rintro u d (hu | hu)
    · by_cases hut : u = t
      · simp [hut] at hu
      · exact .inl (.inl (by simpa [hut] using hu))
    · by_cases hut : u = t
      · subst hut
        have hcd : c = d := by simpa using hu.2
        exact .inl (.inl (hcd ▸ hpc))
      · refine .inl (.inr ?_)
        simpa [hut] using hu

theorem goto_self (hpc : s.pc t = pc) : s.goto t pc = s := by
  subst hpc
  simp only [State.goto, update_eq_self]

section

variable [DecidableEq C]

theorem inv_wakeTurn (h : Inv lk s) {rest : List (Fin m)} {release : Bool}
    (hpc : s.pc t = .wakeup1 c (u :: rest) release) :
    Inv lk ((wakeTurn s u c).goto t (.wakeup1 c rest release)) := by
  have htable := h.ptable t (by rw [hpc]; trivial)
  have hsame : (wakeTurn s u c).pc = s.pc ∧ (wakeTurn s u c).lock = s.lock ∧
      (wakeTurn s u c).cpu = s.cpu ∧ (wakeTurn s u c).cond = s.cond ∧
      (wakeTurn s u c).owes = s.owes := by
    unfold wakeTurn
    split <;> exact ⟨rfl, rfl, rfl, rfl, rfl⟩
  obtain ⟨hpcs, hlock, hcpu, hcond, howes⟩ := hsame
  have hpc' : ((wakeTurn s u c).goto t (.wakeup1 c rest release)).pc =
      update s.pc t (.wakeup1 c rest release) := by
    simp only [State.goto, hpcs]
  have hsleeps : ∀ v d, (wakeTurn s u c).sleepsOn v d → s.sleepsOn v d ∧ ¬ (v = u ∧ d = c) := by
    intro v d hv
    unfold wakeTurn at hv
    split at hv
    · by_cases hvu : v = u
      · simp [hvu] at hv
      · exact ⟨by simpa [hvu] using hv, fun hsame => hvu hsame.1⟩
    · rename_i hnot
      refine ⟨hv, ?_⟩
      rintro ⟨rfl, rfl⟩
      exact hnot hv
  have hwaits : ∀ v d, ((wakeTurn s u c).goto t (.wakeup1 c rest release)).waits v d →
      (wakeTurn s u c).sleepsOn v d := by
    rintro v d (hv | hv)
    · rw [hpc'] at hv
      by_cases hvt : v = t
      · simp [hvt] at hv
      · rw [update_of_ne hvt] at hv
        exact absurd (h.only (t := t) (by rw [hpc]; trivial) (by rw [hv]; trivial)) hvt
    · exact hv
  refine h.move hpc' ?_ ?_ (fun _ => by rwa [State.goto, hlock]) (by simp) ?_ ?_ ?_
    (by simp) ?_
  · intro l' v _ hv
    rwa [State.goto, hlock]
  · intro d hd
    rw [State.goto, hlock]
    exact h.scheduler d (by rwa [State.goto, hcpu] at hd)
  · intro d hfalse htrue
    rw [State.goto, hcond, hfalse] at htrue
    cases htrue
  · intro v d _
    rw [State.goto, howes]
  · intro v d hv hdue
    refine ⟨by rw [State.goto, howes]; exact hdue.1, fun rest' release' hrest => ?_⟩
    rw [hpc', update_self] at hrest
    cases hrest
    have hmem := hdue.2 _ _ hpc
    refine (List.mem_cons.mp hmem).resolve_left fun hvu => ?_
    exact (hsleeps v c (hwaits v c hv)).2 ⟨hvu, rfl⟩
  · intro v d hv
    exact .inl (.inr (hsleeps v d (hwaits v d hv)).1)

/-- The end of `wakeup1`: whoever still waits was marked after the scan, and its
condition is owed by somebody else. -/
theorem inv_paid (h : Inv lk s) {release : Bool} (hpc : s.pc t = .wakeup1 c [] release) :
    Inv lk ((s.paid t c).goto t (.code .run)) := by
  refine h.move rfl (fun _ _ _ hu => hu) h.scheduler (by simp) (by simp)
    ?_ ?_ ?_ (by simp) ?_
  · intro d hfalse htrue
    exact absurd htrue (by simpa using hfalse)
  · intro u d hut
    simp [hut]
  · intro u d _ hdue
    by_cases hdc : d = c
    · subst hdc
      cases hdue.2 [] release hpc
    · exact ⟨by simpa [hdc] using hdue.1, by simp⟩
  · rintro u d (hu | hu)
    · by_cases hut : u = t
      · simp [hut] at hu
      · exact .inl (.inl (by simpa [hut] using hu))
    · exact .inl (.inr hu)

end

variable [DecidableEq L]

theorem lock_take (hfree : s.lock l = none) (l' : Lk L) (u : Fin m)
    (hu : s.lock l' = some (.thread u)) : (s.take t l).lock l' = some (.thread u) := by
  by_cases hl : l' = l
  · subst hl
    rw [hfree] at hu
    cases hu
  · simpa [State.take, hl] using hu

theorem lock_drop (hheld : s.lock l = some (.thread t)) (l' : Lk L) (u : Fin m) (hut : u ≠ t)
    (hu : s.lock l' = some (.thread u)) : (s.drop t l).lock l' = some (.thread u) := by
  by_cases hl : l' = l
  · subst hl
    rw [hheld] at hu
    exact absurd (Agent.thread.inj (Option.some.inj hu)).symm hut
  · simpa [hl] using hu

theorem scheduler_drop (h : Inv lk s) (hheld : s.lock l = some (.thread t)) (d : Fin n)
    (hd : s.cpu d = .scheduler) : (s.drop t l).lock .ptable = some (.cpu d) := by
  have hcpu := h.scheduler d hd
  by_cases hl : l = .ptable
  · subst hl
    rw [hcpu] at hheld
    cases hheld
  · simpa [Ne.symm hl] using hcpu

theorem scheduler_take (h : Inv lk s) (hfree : s.lock l = none) (d : Fin n)
    (hd : s.cpu d = .scheduler) : (s.take t l).lock .ptable = some (.cpu d) := by
  have hcpu := h.scheduler d hd
  by_cases hl : l = .ptable
  · subst hl
    rw [hcpu] at hfree
    cases hfree
  · simpa [State.take, Ne.symm hl] using hcpu

theorem Inv.takeGoto (h : Inv lk s) (hfree : s.lock l = none)
    (hptable : pc.ptable → l = .ptable) (hwaiting : ∀ c, pc.waiting c →
      lk c = l ∨ s.lock (lk c) = some (.thread t))
    (hdue : ∀ u c, ∀ rest release, pc = .wakeup1 c rest release → u ∈ rest)
    (htest : ∀ c, pc = .sleep c ∨ pc = .sleepRelease c → lk c ≠ Lk.ptable ∧ s.cond c = false)
    (hmark : ∀ c, pc ≠ .sleepMark c) : Inv lk ((s.take t l).goto t pc) := by
  refine h.walk rfl (fun l' u _ => lock_take hfree l' u) (scheduler_take h hfree) ?_ ?_ rfl rfl
    (fun u c _ => hdue u c) htest (fun c hpc => absurd hpc (hmark c)) (fun _ _ hu => hu)
  · intro hpc
    rw [← hptable hpc]
    exact update_self _ _ _
  · intro c hpc
    rcases hwaiting c hpc with rfl | hheld
    · exact update_self _ _ _
    · exact lock_take hfree _ t hheld

theorem Inv.dropGoto (h : Inv lk s) (hheld : s.lock l = some (.thread t))
    (hptable : pc.ptable → l ≠ .ptable ∧ s.lock .ptable = some (.thread t))
    (hwaiting : ∀ c, ¬ pc.waiting c)
    (hdue : ∀ c, ∀ rest release, pc ≠ .wakeup1 c rest release)
    (hmark : ∀ c, pc = .sleepMark c → s.cond c = false) :
    Inv lk ((s.drop t l).goto t pc) := by
  refine h.walk rfl (fun l' u hut => lock_drop hheld l' u hut) (scheduler_drop h hheld) ?_
    (fun c hpc => absurd hpc (hwaiting c)) rfl rfl
    (fun u c _ rest release hpc => absurd hpc (hdue c rest release)) ?_ hmark (fun _ _ hu => hu)
  · intro hpc
    obtain ⟨hl, htable⟩ := hptable hpc
    simpa [Ne.symm hl] using htable
  · intro c hpc
    exact absurd (show pc.waiting c by rcases hpc with rfl | rfl <;> rfl) (hwaiting c)

theorem inv_swtch (h : Inv lk s) {resume : Resume C}
    (hpc : s.pc t = .sched resume) : Inv lk (swtch s cpu t resume) := by
  have htable := h.ptable t (by rw [hpc]; trivial)
  refine h.walk rfl ?_ ?_ (by simp) (by simp) rfl rfl (by simp) (by simp)
    (by simp) (fun _ _ hu => hu)
  · intro l' u hut hu
    have hl : l' ≠ .ptable := by
      rintro rfl
      exact hut (Agent.thread.inj (Option.some.inj (hu.symm.trans htable)))
    simpa [swtch, hl] using hu
  · intro d hd
    by_cases hdc : d = cpu
    · simp [swtch, hdc]
    · have hother : s.cpu d = .scheduler := by simpa [swtch, hdc] using hd
      cases (h.scheduler d hother).symm.trans htable

theorem inv_scheduler (h : Inv lk s) {job : Cpu m} {owner : Option (Agent n m)}
    (hnone : ∀ u, s.lock .ptable ≠ some (.thread u))
    (hothers : ∀ d, d ≠ cpu → s.cpu d ≠ .scheduler)
    (hjob : job = .scheduler → owner = some (.cpu cpu)) :
    Inv lk { s with
      lock := update s.lock .ptable owner
      cpu := update s.cpu cpu job } where
  ptable := fun u hu => absurd (h.ptable u hu) (hnone u)
  scheduler := by
    intro d hd
    by_cases hdc : d = cpu
    · subst hdc
      simpa using hjob (by simpa using hd)
    · exact absurd (by simpa [hdc] using hd) (hothers d hdc)
  waiting := by
    intro u c hu
    have hheld := h.waiting u c hu
    have hl : lk c ≠ .ptable := fun hl => hnone u (hl ▸ hheld)
    simpa [hl] using hheld
  test := h.test
  owed := h.owed

theorem inv_pick (h : Inv lk s) {resume : Resume C} (hcpu : s.cpu cpu = .scheduler) :
    Inv lk (pick s cpu t resume) := by
  have htable := h.scheduler cpu hcpu
  refine h.walk rfl ?_ ?_ (by simp [pick]) (by simp) rfl rfl (by simp)
    (by simp) (by simp) (fun _ _ hu => sleepsOn_of_setState (by decide) hu)
  · intro l' u _ hu
    have hl : l' ≠ .ptable := by
      rintro rfl
      cases hu.symm.trans htable
    simpa [pick, hl] using hu
  · intro d hd
    by_cases hdc : d = cpu
    · simp [pick, hdc] at hd
    · have hother : s.cpu d = .scheduler := by simpa [pick, hdc] using hd
      have hsame := (h.scheduler d hother).symm.trans htable
      exact absurd (Agent.cpu.inj (Option.some.inj hsame)) hdc

variable [DecidableEq C]

theorem inv_threadStep (h : Inv lk s)
    (hstep : threadStep lk s cpu t (s.pc t) = some s') : Inv lk s' := by
  have htable := h.ptable t
  have hwaiting := h.waiting t
  generalize hpc : s.pc t = pc at hstep htable hwaiting
  cases pc with
  | code k =>
    cases k with
    | run => cases hstep
    | reacquire c =>
      obtain ⟨hfree, rfl⟩ := taken hstep
      exact h.takeGoto hfree (by simp) (by simp) (by simp) (by simp)
        (by simp)
    | wakeup c =>
      obtain ⟨hfree, rfl⟩ := taken hstep
      refine h.takeGoto hfree (fun _ => rfl) (by simp) ?_ (by simp) (by simp)
      rintro u d rest release ⟨⟩
      exact List.mem_finRange u
  | loop c =>
    have hheld := hwaiting c rfl
    simp only [threadStep] at hstep
    split at hstep
    · cases hstep
      exact h.stay rfl rfl rfl rfl rfl (by simp) (by simp) (by simp)
        (by simp) (by simp) (fun _ _ hu => hu)
    · rename_i hcond
      have hfalse : s.cond c = false := Bool.eq_false_iff.mpr hcond
      cases hstep
      by_cases hlk : lk c = Lk.ptable
      · rw [if_pos hlk]
        exact h.stay rfl rfl rfl rfl rfl (fun _ => hlk ▸ hheld) (by simp) (by simp)
          (by simp) (by simpa using hfalse) (fun _ _ hu => hu)
      · rw [if_neg hlk]
        exact h.stay rfl rfl rfl rfl rfl (by simp)
          (by rintro d rfl; exact hheld) (by simp)
          (by simpa using ⟨hlk, hfalse⟩) (by simp) (fun _ _ hu => hu)
  | sleep c =>
    obtain ⟨hfree, rfl⟩ := taken hstep
    have htest := h.test t c (.inl hpc)
    exact h.takeGoto hfree (fun _ => rfl) (by rintro d rfl; exact .inr (hwaiting c rfl)) (by simp)
      (by simpa using htest) (by simp)
  | sleepRelease c =>
    cases hstep
    have htest := h.test t c (.inr hpc)
    exact h.dropGoto (hwaiting c rfl) (fun _ => ⟨htest.1, htable trivial⟩) (by simp)
      (by simp) (by simpa using htest.2)
  | sleepMark c =>
    cases hstep
    exact inv_sleepMark h hpc
  | sleepWoken c =>
    cases hstep
    exact h.dropGoto (htable trivial) (by simp) (by simp) (by simp)
      (by simp)
  | wakeup1 c rest release =>
    cases rest with
    | cons u rest =>
      cases hstep
      exact inv_wakeTurn h hpc
    | nil =>
      have hpaid := inv_paid h hpc
      cases release with
      | false =>
        cases hstep
        exact hpaid
      | true =>
        cases hstep
        have hheld : ((s.paid t c).goto t (.code .run)).lock .ptable = some (.thread t) :=
          htable trivial
        have hdrop : Inv lk ((((s.paid t c).goto t (.code .run)).drop t .ptable).goto t
            (.code .run)) :=
          hpaid.dropGoto hheld (by simp) (by simp) (by simp) (by simp)
        simpa using hdrop
  | yield k =>
    obtain ⟨hfree, rfl⟩ := taken hstep
    exact h.takeGoto hfree (fun _ => rfl) (by simp) (by simp) (by simp) (by simp)
  | yieldMark k =>
    cases hstep
    exact h.stay rfl rfl rfl rfl rfl (fun _ => htable trivial) (by simp) (by simp)
      (by simp) (by simp) (fun _ _ hu => sleepsOn_of_setState (by decide) hu)
  | sched resume =>
    obtain ⟨-, rfl⟩ := taken hstep
    exact inv_swtch h hpc
  | switched resume => cases hstep
  | resumed resume =>
    cases resume with
    | yield k =>
      cases hstep
      exact h.dropGoto (htable trivial) (by simp) (by simp) (by simp)
        (by simp)
    | sleep c =>
      cases hstep
      have hsleeps : ∀ u d,
          State.sleepsOn { s with chan := update s.chan t none } u d →
            s.sleepsOn u d := by
        intro u d hu
        by_cases hut : u = t
        · simp [hut] at hu
        · simpa [hut] using hu
      by_cases hlk : lk c = Lk.ptable
      · rw [if_pos hlk]
        exact h.stay rfl rfl rfl rfl rfl (by simp)
          (by rintro d rfl; rw [hlk]; exact htable trivial) (by simp) (by simp) (by simp) hsleeps
      · rw [if_neg hlk]
        exact h.stay rfl rfl rfl rfl rfl (fun _ => htable trivial) (by simp) (by simp)
          (by simp) (by simp) hsleeps

theorem inv_set (h : Inv lk s) {value : Bool} (hpc : s.pc t = .code .run)
    (hstep : codeStep lk s t (.set c value) = some s') : Inv lk s' := by
  cases value with
  | false =>
    cases hstep
    refine h.move (update_eq_self t s.pc).symm (fun _ _ _ hu => hu) h.scheduler
      (by simp [hpc]) (by simp [hpc]) ?_ (fun _ _ _ => rfl)
      (fun _ _ _ hdue => hdue) (by simp [hpc]) (fun _ _ hu => .inl hu)
    intro d hfalse htrue
    by_cases hdc : d = c <;> simp [hdc, hfalse] at htrue
  | true =>
    obtain ⟨hheld, rfl⟩ := taken hstep
    refine h.move (update_eq_self t s.pc).symm (fun _ _ _ hu => hu) h.scheduler
      (by simp [hpc]) (by simp [hpc]) ?_ ?_ ?_ (by simp [hpc])
      (fun _ _ hu => .inl hu)
    · intro d hfalse htrue
      by_cases hdc : d = c
      · subst hdc
        refine ⟨hheld, ?_⟩
        funext u
        simp [State.due, hfalse, hpc]
      · simp [hdc, hfalse] at htrue
    · intro u d hut
      simp [hut]
    · intro u d _ hdue
      refine ⟨?_, by simp [hpc]⟩
      by_cases hdc : d = c
      · subst hdc
        simp [hdue.1]
      · simpa [hdc] using hdue.1

theorem inv_codeStep (h : Inv lk s) {cmd : Cmd m L C} (hpc : s.pc t = .code .run)
    (hstep : codeStep lk s t cmd = some s') : Inv lk s' := by
  cases cmd with
  | acquire l =>
    obtain ⟨hfree, rfl⟩ := taken hstep
    rw [← goto_self (s := s.take t l) hpc]
    exact h.takeGoto hfree (by simp) (by simp) (by simp) (by simp)
      (by simp)
  | release l =>
    obtain ⟨hheld, rfl⟩ := taken hstep
    rw [← goto_self (s := s.drop t l) hpc]
    exact h.dropGoto hheld (by simp) (by simp) (by simp) (by simp)
  | set c value => exact inv_set h hpc hstep
  | wait c =>
    obtain ⟨hheld, rfl⟩ := taken hstep
    exact h.stay rfl rfl rfl rfl rfl (by simp) (by rintro d rfl; exact hheld)
      (by simp) (by simp) (by simp) (fun _ _ hu => hu)
  | wakeup c =>
    cases hstep
    exact h.stay rfl rfl rfl rfl rfl (by simp) (by simp) (by simp)
      (by simp) (by simp) (fun _ _ hu => hu)
  | wakeup1 c =>
    obtain ⟨hheld, rfl⟩ := taken hstep
    refine h.stay rfl rfl rfl rfl rfl (fun _ => hheld) (by simp) ?_ (by simp)
      (by simp) (fun _ _ hu => hu)
    rintro u d rest release ⟨⟩
    exact List.mem_finRange u
  | go | tick | pick t => cases hstep

theorem inv_step {a : Act n m L C} (h : Inv lk s) (hstep : step lk s a = some s') : Inv lk s' := by
  obtain ⟨cpu, cmd⟩ := a
  simp only [step] at hstep
  split at hstep
  · rename_i hidle
    split at hstep
    · obtain ⟨hfree, rfl⟩ := taken hstep
      refine inv_scheduler h (by simp [hfree]) (fun d _ hd => ?_) (fun _ => rfl)
      cases (h.scheduler d hd).symm.trans hfree
    · cases hstep
  · rename_i hscheduler
    have htable := h.scheduler cpu hscheduler
    split at hstep
    · cases hstep
      refine inv_scheduler h (by simp [htable]) (fun d hdc hd => ?_) (by simp)
      have hsame := (h.scheduler d hd).symm.trans htable
      exact hdc (Agent.cpu.inj (Option.some.inj hsame))
    · split at hstep
      · obtain ⟨-, rfl⟩ := taken hstep
        exact inv_pick h hscheduler
      · cases hstep
    · cases hstep
  · rename_i t hrun
    split at hstep
    · exact inv_threadStep h hstep
    · split at hstep
      · obtain ⟨-, rfl⟩ := taken hstep
        exact h.stay rfl rfl rfl rfl rfl (by simp) (by simp) (by simp)
          (by simp) (by simp) (fun _ _ hu => hu)
      · cases hstep
    · obtain ⟨hpc, hnext⟩ := Option.ite_none_right_eq_some.mp hstep
      exact inv_codeStep h hpc hnext

theorem inv_run {labels : List (Act n m L C)} (h : Inv lk s)
    (hrun : run (step lk) s labels = some s') : Inv lk s' :=
  run_invariant (fun _ _ _ h _ hstep => inv_step h hstep) h
    (meets_of_forall (fun _ _ _ => trivial) _) hrun

/-- No wakeup is lost: whenever the condition of a channel is true and a thread
is `SLEEPING` on it, some thread still owes a `wakeup` of the channel and its scan
has not passed the sleeper. -/
theorem sleep_wakeup_loses_nothing (lk : C → Lk L) (cond : C → Bool) (ready : Fin m → Bool)
    (labels : List (Act n m L C)) (final : State n m L C)
    (hrun : run (step lk) (boot cond ready) labels = some final) (c : C)
    (htrue : final.cond c = true) (t : Fin m) (hsleep : final.sleepsOn t c) :
    ∃ u, final.due u c t := by
  rcases (inv_run (inv_boot cond ready) hrun).owed t c (.inr hsleep) with hfalse | hdue
  · rw [hfalse] at htrue
    cases htrue
  · exact hdue

def sleeper : Fin 2 := ⟨0, Nat.zero_lt_two⟩
def waker : Fin 2 := ⟨1, Nat.one_lt_two⟩

def lockOf : Bool → Lk Unit
  | true => .ptable
  | false => .other ()

def on (c : Fin n) (cmds : List (Cmd m L C)) : List (Act n m L C) := cmds.map fun cmd => ⟨c, cmd⟩

/-- One thread goes to sleep in as many steps as its lock makes necessary; on
the other CPU another thread makes the condition true. -/
def changeUnderSleeper (c : Bool) (steps : Nat) : List (Act 2 2 Unit Bool) :=
  on sleeper ([.go, .pick sleeper, .go, .acquire (lockOf c), .wait c] ++
    List.replicate steps .go ++ [.go]) ++
  on waker [.go, .pick waker, .go, .acquire (lockOf c), .set c true]

theorem sleep_wakeup_loses_nothing_change_under_sleeper :
    (∃ final, run (step lockOf) (boot (fun _ => false) fun _ => true)
        (changeUnderSleeper false 5) = some final ∧
      final.sleepsOn sleeper false ∧ ∃ u, final.due u false sleeper) ∧
    ∃ final, run (step lockOf) (boot (fun _ => false) fun _ => true)
        (changeUnderSleeper true 3) = some final ∧
      final.sleepsOn sleeper true ∧ ∃ u, final.due u true sleeper := by
  constructor
  · obtain ⟨final, hrun, hcond, hsleeps⟩ :
        ∃ final, run (step lockOf) (boot (fun _ => false) fun _ => true)
          (changeUnderSleeper false 5) = some final ∧
          final.cond false = true ∧ final.state sleeper = .sleeping ∧
          final.chan sleeper = some false := by
      decide +kernel
    exact ⟨final, hrun, hsleeps,
      sleep_wakeup_loses_nothing lockOf _ _ _ final hrun false hcond sleeper hsleeps⟩
  · obtain ⟨final, hrun, hcond, hsleeps⟩ :
        ∃ final, run (step lockOf) (boot (fun _ => false) fun _ => true)
          (changeUnderSleeper true 3) = some final ∧
          final.cond true = true ∧ final.state sleeper = .sleeping ∧
          final.chan sleeper = some true := by
      decide +kernel
    exact ⟨final, hrun, hsleeps,
      sleep_wakeup_loses_nothing lockOf _ _ _ final hrun true hcond sleeper hsleeps⟩

end Xv6.Sleep
