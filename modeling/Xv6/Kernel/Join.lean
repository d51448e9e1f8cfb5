import Xv6.Kernel.Steps

/-! `kthread_join`. A joiner decides under `proc->lock` while `kthread_exit`
stores `ZOMBIE` and wakes under `ptable.lock`, and the first joiner frees the
entry that the others still watch. -/
namespace Xv6.Kernel
open Function (update update_self update_of_ne)
open Transition

variable {n : Nat}

def ProcState.used (state : ProcState) : Prop :=
  state ≠ .unused ∧ state ≠ .embryo

def ProcState.live (state : ProcState) : Prop :=
  ProcState.used state ∧ state ≠ .zombie

/-- A `kthread_join` that returned 0 was asked for a thread of the calling
process that has terminated; and no thread sleeps in `kthread_join`, with both
locks free, once that thread is `ZOMBIE` or its entry was freed. -/
structure JoinSound (s : State n) : Prop where
  returned : ∀ pid id, (pid, id) ∈ s.joined → (id, pid) ∈ s.created ∧ id ∈ s.terminated
  awake : ∀ z y id, s.ptlock = none → s.lock z.1 = none → s.state z = .sleeping →
    (s.thread z).context.resume = .slept (.rejoin y id) →
    (s.thread y).tid = id ∧ s.state y ≠ .zombie ∧ s.state y ≠ .unused

def Code.joins : Code → Option (Slot × Int)
  | .rejoin y id => some (y, id)
  | _ => none

attribute [local simp] ProcState.used State.setCpu State.setThread boot State.ready ProcState.live
  Code.joins

def Pc.joins : Pc → Option (Slot × Int)
  | .code k | .yielding k | .sleeping _ k => k.joins
  | .joinLoop y id | .joinSleep y id | .joinReap y id _ => some (y, id)
  | _ => none

/-- `kthread_join` has found an entry. -/
def Cpu.asking : Cpu → Option (Slot × Int)
  | .run x _ (.joinFound _ id) => some (x, id)
  | _ => none

def Cpu.joining : Cpu → Option Slot
  | .run _ _ pc => pc.joins.map Prod.fst
  | _ => none

def Cpu.pausing : Cpu → Option Slot
  | .run _ _ (.joinSleep y _) => some y
  | _ => none

def Cpu.numbering : Cpu → Option Int
  | .run _ _ (.allocTid _ tid _) => some tid
  | _ => none

/-- No thread other than the one on CPU `c` is in the loop of `kthread_join` for
entry `y`. -/
def State.unjoined (s : State n) (c : Fin n) (y : Slot) : Prop :=
  (∀ c', c' ≠ c → (s.cpu c').joining ≠ some y) ∧
  ∀ i, (s.cpu c).thread ≠ some (y.1, i) →
    s.state (y.1, i) = .runnable ∨ s.state (y.1, i) = .sleeping →
    (s.thread (y.1, i)).context.resume.pc.joins.map Prod.fst ≠ some y

instance (s : State n) (c : Fin n) (y : Slot) : Decidable (s.unjoined c y) :=
  @instDecidableAnd _ _ (Nat.decidableForallFin _) (Nat.decidableForallFin _)

/-- No joiner has missed that thread `x` is `ZOMBIE` and still has to sleep. -/
def State.unmissed (s : State n) (x : Slot) : Prop :=
  ∀ c, (s.cpu c).pausing ≠ some x

instance (s : State n) (x : Slot) : Decidable (s.unmissed x) :=
  Nat.decidableForallFin _

/-- The entry found by `kthread_join` was made by `kthread_create` or `fork` for
this process; an entry is freed only when nobody else waits for it; when
`kthread_exit` wakes the joiners, none is between its test and its sleep; and
`nexttid++` is not interrupted by another process. -/
def JoinsApart (s : State n) (a : Act n) : Prop :=
  Calm s a ∧ (∀ e ∈ (s.cpu a.cpu).asking, (e.2, (s.proc e.1.1).pid) ∈ s.created) ∧
    (∀ y ∈ (s.cpu a.cpu).reaping, s.unjoined a.cpu y) ∧
    (∀ x ∈ (s.cpu a.cpu).leaving, s.unmissed x) ∧
    ∀ tid ∈ (s.cpu a.cpu).numbering, s.nexttid = tid

instance (s : State n) (a : Act n) : Decidable (JoinsApart s a) :=
  @instDecidableAnd _ _ inferInstance (@instDecidableAnd _ _ (Option.decidableForallMem _)
    (@instDecidableAnd _ _ (Option.decidableForallMem _)
      (@instDecidableAnd _ _ (Option.decidableForallMem _) (Option.decidableForallMem _))))

def Pc.numbers : Pc → Option Slot
  | .code k | .yielding k | .sleeping _ k => k.makes
  | _ => none

def Pc.finds : Pc → Option (Slot × Int)
  | .joinFound y id | .joinUsed y id => some (y, id)
  | pc => pc.joins

/-- After the check that the thread was created in this process. -/
def Pc.asks : Pc → Option (Slot × Int)
  | .joinUsed y id => some (y, id)
  | pc => pc.joins

def Pc.sleeps : Pc → Option Slot
  | .joinSleep y _ | .sleeping _ (.rejoin y _) => some y
  | _ => none

def Pc.watches (y : Slot) : Pc → Prop
  | .sleeping chan _ => chan = .thread y
  | _ => True

def Pending (s : State n) (y : Slot) : Prop :=
  s.state y = .zombie → ∃ c stack, s.cpu c = .run y stack .kthreadExiting

structure JoinRefs (s : State n) (x : Slot) (pc : Pc) : Prop where
  numbers : ∀ y, pc.numbers = some y → 0 < (s.thread y).tid
  finds : ∀ y id, pc.finds = some (y, id) → (s.thread y).tid = id
  asks : ∀ y id, pc.asks = some (y, id) → (id, (s.proc x.1).pid) ∈ s.created
  joins : ∀ y id, pc.joins = some (y, id) → ProcState.used (s.state y)
  sleeps : ∀ y, pc.sleeps = some y → Pending s y ∧ pc.watches y

structure OffJoin (s : State n) (x : Slot) : Prop where
  refs : s.ready x → JoinRefs s x (s.thread x).context.resume.pc
  sleeping : ∀ y id, s.state x = .sleeping → (s.thread x).context.resume = .slept (.rejoin y id) →
    (s.thread x).chan = some (.thread y) ∧ Pending s y

structure Joins (s : State n) : Prop where
  nexttid : 0 < s.nexttid
  fresh : ∀ y, (s.thread y).tid < s.nexttid
  unique : ∀ y z, (s.thread y).tid = (s.thread z).tid → 0 < (s.thread y).tid → y = z
  created : ∀ id pid, (id, pid) ∈ s.created → 0 < id ∧ id < s.nexttid ∧
    (id ∈ s.terminated ∨ ∃ y, (s.thread y).tid = id ∧ ProcState.live (s.state y))
  embryo : ∀ y pid, s.state y = .embryo → ((s.thread y).tid, pid) ∈ s.created →
    ∃ c x stack tid caller, s.cpu c = .run x stack (.allocTid y tid caller)
  joined : ∀ pid id, (pid, id) ∈ s.joined → (id, pid) ∈ s.created ∧ id ∈ s.terminated
  locals : Locals (fun s x _ pc => JoinRefs s x pc) OffJoin s

variable {s s' : State n} {c : Fin n} {x y : Slot} {stack : Nat} {pc pc' : Pc}

theorem makes_of_numbers (h : pc.numbers = some y) : pc.makes = some y := by
  cases pc <;> simp_all [Pc.numbers, Pc.makes]

theorem numbers_of_readies (h : pc.readies = some y) : pc.numbers = some y := by
  have hmakes := makes_of_readies h
  cases pc <;> first | exact hmakes | cases h

theorem JoinRefs.plain (hnumbers : pc.numbers = none) (hfinds : pc.finds = none) :
    JoinRefs s x pc := by
  have hjoins : pc.joins = none := by
    cases pc <;> simp_all [Pc.finds, Pc.joins]
  have hasks : pc.asks = none := by
    cases pc <;> simp_all [Pc.finds, Pc.asks]
  have hsleeps : pc.sleeps = none := by
    cases pc <;> simp_all [Pc.sleeps, Pc.joins]
    rename_i k
    cases k <;> simp_all
  exact ⟨by simp [hnumbers], by simp [hfinds], by simp [hasks], by simp [hjoins], by simp [hsleeps]⟩

theorem JoinRefs.congr (h : JoinRefs s x pc) (hnumbers : pc'.numbers = pc.numbers)
    (hfinds : pc'.finds = pc.finds) (hasks : pc'.asks = pc.asks) (hjoins : pc'.joins = pc.joins)
    (hsleeps : ∀ y, pc'.sleeps = some y → Pending s y ∧ pc'.watches y) : JoinRefs s x pc' :=
  ⟨hnumbers ▸ h.numbers, hfinds ▸ h.finds, hasks ▸ h.asks, hjoins ▸ h.joins, hsleeps⟩

theorem JoinRefs.frame (h : JoinRefs s x pc)
    (hnumbers : ∀ y, pc.numbers = some y → (s'.thread y).tid = (s.thread y).tid)
    (hfinds : ∀ y id, pc.finds = some (y, id) → (s'.thread y).tid = (s.thread y).tid)
    (hcreated : ∀ e ∈ s.created, e ∈ s'.created)
    (hpid : pc.asks ≠ none → (s'.proc x.1).pid = (s.proc x.1).pid)
    (hjoins : ∀ y id, pc.joins = some (y, id) → ProcState.used (s.state y) →
      ProcState.used (s'.state y))
    (hsleeps : ∀ y, pc.sleeps = some y → Pending s y → Pending s' y) : JoinRefs s' x pc where
  numbers := fun y hy => by
    rw [hnumbers y hy]
    exact h.numbers y hy
  finds := fun y id hy => by
    rw [hfinds y id hy]
    exact h.finds y id hy
  asks := fun y id hy => by
    rw [hpid (by simp [hy])]
    exact hcreated _ (h.asks y id hy)
  joins := fun y id hy => hjoins y id hy (h.joins y id hy)
  sleeps := fun y hy => (h.sleeps y hy).imp_left (hsleeps y hy)

theorem resume_finds (resume : Resume) : resume.pc.finds = resume.pc.joins := by
  cases resume <;> rfl

/-- What most steps do to the numbers and states of threads. -/
structure Quiet (s s' : State n) : Prop where
  live : ∀ y, ProcState.live (s.state y) →
    ProcState.live (s'.state y) ∨ (s.thread y).tid ∈ s'.terminated
  embryo : ∀ y, s'.state y = .embryo → s.state y = .embryo ∨
    ∃ c x stack tid caller, s'.cpu c = .run x stack (.allocTid y tid caller)
  created : ∀ e ∈ s.created, e ∈ s'.created
  creates : ∀ e ∈ s'.created, e ∈ s.created ∨
    ∃ y, (s.thread y).tid = e.1 ∧ 0 < e.1 ∧ ProcState.live (s'.state y)
  terminated : ∀ id ∈ s.terminated, id ∈ s'.terminated
  joined : ∀ e ∈ s'.joined, e ∈ s.joined ∨ (e.2, e.1) ∈ s.created ∧ e.2 ∈ s.terminated
  pid : ∀ p, s.pstate p = .runnable → (s'.proc p).pid = (s.proc p).pid

theorem Quiet.of_lists (hlive : ∀ y, ProcState.live (s.state y) → ProcState.live (s'.state y))
    (hembryo : ∀ y, s'.state y = .embryo → s.state y = .embryo ∨
      ∃ c x stack tid caller, s'.cpu c = .run x stack (.allocTid y tid caller))
    (hcreated : s'.created = s.created) (hterm : s'.terminated = s.terminated)
    (hjoined : ∀ e ∈ s'.joined, e ∈ s.joined ∨ (e.2, e.1) ∈ s.created ∧ e.2 ∈ s.terminated)
    (hpid : ∀ p, s.pstate p = .runnable → (s'.proc p).pid = (s.proc p).pid) : Quiet s s' where
  live := fun y hy => Or.inl (hlive y hy)
  embryo := hembryo
  created := fun _ hmem => by rwa [hcreated]
  creates := fun _ hmem => Or.inl (by rwa [hcreated] at hmem)
  terminated := fun _ hmem => by rwa [hterm]
  joined := hjoined
  pid := hpid

structure Rests (s s' : State n) (z : Slot) : Prop where
  ready : s'.ready z → s.ready z ∧ (s'.thread z).context.resume = (s.thread z).context.resume
  sleeping : s'.state z = .sleeping → s.state z = .sleeping ∧ (s'.thread z).chan = (s.thread z).chan

section

variable {v : Cpu}

theorem Inv.asks_runnable (h : Inv s) (hcpu : s.cpu c = .run x stack pc) (hasks : pc.asks ≠ none) :
    s.pstate x.1 = .runnable := by
  refine (h.alive c x stack pc hcpu).resolve_right fun hexited => ?_
  rw [hexited.2] at hasks
  exact hasks rfl

theorem Inv.ready_runnable (h : Inv s) (hx : s.ready x) : s.pstate x.1 = .runnable := by
  refine (h.lives x ?_).resolve_right fun hembryo => ?_
  · rcases hx with heq | heq <;> simp [heq]
  · rcases hx with heq | heq <;> simp [heq] at hembryo

/-- The step rule: numbers stay, and whoever waits for an entry finds it used,
with the wake-up still to come if it is `ZOMBIE`. -/
theorem Joins.quiet (h : Joins s) (hinv : Inv s) (hq : Quiet s s')
    (htid : ∀ y, (s'.thread y).tid = (s.thread y).tid) (hnexttid : s'.nexttid = s.nexttid)
    (hcpu' : s'.cpu = update s.cpu c v)
    (hc : (s.cpu c).numbering = none)
    (hjoins : ∀ c' z stack pc, c' ≠ c → s.cpu c' = .run z stack pc →
      ∀ y id, pc.joins = some (y, id) → ProcState.used (s.state y) → ProcState.used (s'.state y))
    (hsleeps : ∀ c' z stack pc, c' ≠ c → s.cpu c' = .run z stack pc →
      ∀ y, pc.sleeps = some y → Pending s y → Pending s' y)
    (hoff : ∀ z, (∀ c', (s.cpu c').thread ≠ some z) → OffJoin s' z ∨ (Rests s s' z ∧
      ∀ y id, (s.thread z).context.resume.pc.joins = some (y, id) →
        (s'.ready z → ProcState.used (s.state y) → ProcState.used (s'.state y)) ∧
        (s'.state z = .sleeping → (s.thread z).context.resume = .slept (.rejoin y id) →
          Pending s y → Pending s' y)))
    (hleft : ∀ z, (s.cpu c).thread = some z → v.thread ≠ some z → OffJoin s' z)
    (hv : ∀ x stack pc, v = .run x stack pc → JoinRefs s' x pc) : Joins s' where
  nexttid := by
    rw [hnexttid]
    exact h.nexttid
  fresh := fun y => by
    rw [htid, hnexttid]
    exact h.fresh y
  unique := fun y z => by
    rw [htid, htid]
    exact h.unique y z
  created := fun id pid hmem => by
    rw [hnexttid]
    simp only [htid]
    rcases hq.creates _ hmem with hold | ⟨y, hy, hpos, hlive⟩
    · obtain ⟨hpos, hlt, hcase⟩ := h.created id pid hold
      refine ⟨hpos, hlt, ?_⟩
      rcases hcase with hterm | ⟨y, hy, hlive⟩
      · exact Or.inl (hq.terminated id hterm)
      · rcases hq.live y hlive with hlive' | hterm
        · exact Or.inr ⟨y, hy, hlive'⟩
        · exact Or.inl (hy ▸ hterm)
    · have hlt := h.fresh y
      rw [hy] at hlt
      exact ⟨hpos, hlt, Or.inr ⟨y, hy, hlive⟩⟩
  embryo := fun y pid hembryo hmem => by
    rcases hq.embryo y hembryo with hold | hcpu
    · rw [htid] at hmem
      rcases hq.creates _ hmem with hmem' | ⟨z, hz, hpos, hlive⟩
      · obtain ⟨c', z, stack', tid, caller, hrun⟩ := h.embryo y pid hold hmem'
        have hne : c' ≠ c := by
          rintro rfl
          simp [hrun, Cpu.numbering] at hc
        exact ⟨c', z, stack', tid, caller, by rw [hcpu', update_of_ne hne, hrun]⟩
      · cases h.unique z y hz (hz ▸ hpos)
        exact absurd hembryo hlive.1.2
    · exact hcpu
  joined := fun pid id hmem => by
    rcases hq.joined _ hmem with hold | ⟨hcreated, hterm⟩
    · obtain ⟨hcreated, hterm⟩ := h.joined pid id hold
      exact ⟨hq.created _ hcreated, hq.terminated _ hterm⟩
    · exact ⟨hq.created _ hcreated, hq.terminated _ hterm⟩
  locals := by
    refine h.locals.step hcpu' ?_ ?_ hleft hv
    · intro c' z stack' pc'' hne hrun hrefs
      exact hrefs.frame (fun y _ => htid y) (fun y _ _ => htid y) hq.created
        (fun hasks => hq.pid _ (hinv.asks_runnable hrun hasks)) (hjoins c' z stack' pc'' hne hrun)
        (hsleeps c' z stack' pc'' hne hrun)
    · intro z hnone _ hold
      rcases hoff z hnone with hnew | ⟨hrests, hkeep⟩
      · exact hnew
      · refine ⟨fun hready => ?_, fun y id hsleeping hresume => ?_⟩
        · obtain ⟨hready', hresume⟩ := hrests.ready hready
          rw [hresume]
          refine (hold.refs hready').frame (fun y _ => htid y) (fun y _ _ => htid y) hq.created
            (fun _ => hq.pid _ (hinv.ready_runnable hready'))
            (fun y id hy => (hkeep y id hy).1 hready) (fun y hy => ?_)
          cases hpc : (s.thread z).context.resume <;> simp [hpc, Resume.pc, Pc.sleeps] at hy
        · obtain ⟨hsleeping', hchan⟩ := hrests.sleeping hsleeping
          obtain ⟨-, hresume'⟩ := hrests.ready (Or.inr hsleeping)
          rw [hresume'] at hresume
          obtain ⟨hchan', hpending⟩ := hold.sleeping y id hsleeping' hresume
          refine ⟨hchan.trans hchan', (hkeep y id ?_).2 hsleeping hresume hpending⟩
          rw [hresume]
          rfl

theorem Pending.keep (h : Pending s y) (hcpu' : s'.cpu = update s.cpu c v)
    (hexiting : (s.cpu c).leaving = none)
    (hstate : s'.state y = .zombie → s.state y = .zombie) : Pending s' y := by
  intro hzombie
  obtain ⟨c', stack', hrun⟩ := h (hstate hzombie)
  have hne : c' ≠ c := by
    rintro rfl
    simp [hrun, Cpu.leaving] at hexiting
  exact ⟨c', stack', by rw [hcpu', update_of_ne hne, hrun]⟩

/-- No thread, other than the one on CPU `c`, is in the loop for entry `y`. -/
structure Unjoined (s : State n) (c : Fin n) (y : Slot) : Prop where
  cpus : ∀ c' z stack pc id, c' ≠ c → s.cpu c' = .run z stack pc → pc.joins ≠ some (y, id)
  resting : ∀ z id, (∀ c', (s.cpu c').thread ≠ some z) → s.ready z →
    (s.thread z).context.resume.pc.joins ≠ some (y, id)

theorem Joins.same (h : Joins s) (hinv : Inv s)
    (hthread : ∀ y, (s'.thread y).tid = (s.thread y).tid ∧ s'.state y = s.state y ∧
      (s.state y ≠ .embryo → (s'.thread y).context.resume = (s.thread y).context.resume) ∧
      (s'.thread y).chan = (s.thread y).chan)
    (hnexttid : s'.nexttid = s.nexttid) (hcreated : s'.created = s.created)
    (hterm : s'.terminated = s.terminated)
    (hjoined : ∀ e ∈ s'.joined, e ∈ s.joined ∨ (e.2, e.1) ∈ s.created ∧ e.2 ∈ s.terminated)
    (hpid : ∀ p, s.pstate p = .runnable → (s'.proc p).pid = (s.proc p).pid)
    (hcpu' : s'.cpu = update s.cpu c v) (hv' : v.thread = (s.cpu c).thread)
    (hc : (s.cpu c).numbering = none ∧ (s.cpu c).leaving = none)
    (hv : ∀ x stack pc, v = .run x stack pc → JoinRefs s x pc ∧ s.pstate x.1 = .runnable) :
    Joins s' := by
  have hpending : ∀ {y}, Pending s y → Pending s' y := fun {y} hy =>
    hy.keep hcpu' hc.2 fun hzombie => (hthread y).2.1 ▸ hzombie
  have hq : Quiet s s' := .of_lists (fun y hy => by rwa [(hthread y).2.1])
    (fun y hy => Or.inl (by rwa [(hthread y).2.1] at hy)) hcreated hterm hjoined hpid
  refine h.quiet hinv hq (fun y => (hthread y).1) hnexttid hcpu' hc.1 ?_ ?_
    (fun z _ => Or.inr ⟨?_, ?_⟩) ?_ ?_
  · intro _ _ _ _ _ _ y _ _ hused
    rwa [(hthread y).2.1]
  · exact fun _ _ _ _ _ _ y _ => hpending
  · refine ⟨fun hready => ?_, fun hsleeping => ?_⟩
    · rw [State.ready, (hthread z).2.1] at hready
      refine ⟨hready, (hthread z).2.2.1 fun hembryo => ?_⟩
      simp [hembryo] at hready
    · rw [(hthread z).2.1] at hsleeping
      exact ⟨hsleeping, (hthread z).2.2.2⟩
  · intro y id _
    refine ⟨fun _ hused => ?_, fun _ _ => hpending⟩
    rwa [(hthread y).2.1]
  · exact fun z hz hne => absurd (hv'.trans hz) hne
  · intro z stack' pc'' heq
    obtain ⟨hrefs, hrunnable⟩ := hv z stack' pc'' heq
    refine hrefs.frame (fun y _ => (hthread y).1) (fun y _ _ => (hthread y).1) hq.created
      (fun _ => hpid _ hrunnable) (fun y _ _ hused => ?_) (fun y _ => hpending)
    rwa [(hthread y).2.1]

variable {t : Thread}

theorem Joins.store (h : Joins s) (hinv : Inv s) (hq : Quiet s s')
    (hthread : s'.thread = update s.thread y t) (htid : t.tid = (s.thread y).tid)
    (hnexttid : s'.nexttid = s.nexttid) (hcpu' : s'.cpu = update s.cpu c v)
    (hc : (s.cpu c).numbering = none ∧ (s.cpu c).leaving = none)
    (hused : ProcState.used (s.state y) → ProcState.used t.state ∨ Unjoined s c y)
    (hzombie : t.state = .zombie → s.state y = .zombie ∨ ∃ stack, v = .run y stack .kthreadExiting)
    (hleft : ∀ z, (s.cpu c).thread = some z → z ≠ y → v.thread = some z)
    (hoff : OffJoin s' y)
    (hv : ∀ x stack pc, v = .run x stack pc → JoinRefs s' x pc) : Joins s' := by
  have hself := self_of_update hthread
  have hstay : ∀ {z}, z ≠ y → s'.thread z = s.thread z := stay_of_update hthread
  have hpending : ∀ {z}, Pending s z → Pending s' z := by
    intro z hz hdead
    by_cases hzy : z = y
    · subst hzy
      rw [State.state, hself] at hdead
      rcases hzombie hdead with hold | ⟨stack, rfl⟩
      · exact hz.keep hcpu' hc.2 (fun _ => hold) (by rw [State.state, hself, hdead])
      · exact ⟨c, stack, by rw [hcpu', update_self]⟩
    · exact hz.keep hcpu' hc.2 (fun hd => by rwa [State.state, hstay hzy] at hd) hdead
  refine h.quiet hinv hq (fun z => ?_) hnexttid hcpu' hc.1 ?_ ?_ (fun z hnone => ?_) ?_ hv
  · rw [hthread]
    exact field_update Thread.tid htid z
  · intro c' z stack' pc'' hne hrun y' id hy' hused'
    by_cases heq : y' = y
    · subst heq
      rcases hused hused' with hu | hun
      · rw [State.state, hself]
        exact hu
      · exact absurd hy' (hun.cpus c' z stack' pc'' id hne hrun)
    · rw [State.state, hstay heq]
      exact hused'
  · exact fun _ _ _ _ _ _ _ _ => hpending
  · by_cases hz : z = y
    · subst hz
      exact Or.inl hoff
    · refine Or.inr ⟨⟨fun hready => ?_, fun hsleeping => ?_⟩, fun y' id hy' =>
        ⟨fun hready hused' => ?_, fun _ _ => hpending⟩⟩
      · rw [State.ready, State.state, hstay hz] at hready
        exact ⟨hready, by rw [hstay hz]⟩
      · rw [State.state, hstay hz] at hsleeping
        exact ⟨hsleeping, by rw [hstay hz]⟩
      · by_cases heq : y' = y
        · subst heq
          rw [State.ready, State.state, hstay hz] at hready
          rcases hused hused' with hu | hun
          · rw [State.state, hself]
            exact hu
          · exact absurd hy' (hun.resting z id hnone hready)
        · rw [State.state, hstay heq]
          exact hused'
  · intro z hz hne
    by_cases hzy : z = y
    · subst hzy
      exact hoff
    · exact absurd (hleft z hz hzy) hne

theorem Quiet.of_store (hthread : s'.thread = update s.thread y t)
    (hcreated : s'.created = s.created) (hterm : s'.terminated = s.terminated)
    (hjoined : ∀ e ∈ s'.joined, e ∈ s.joined ∨ (e.2, e.1) ∈ s.created ∧ e.2 ∈ s.terminated)
    (hpid : ∀ p, (s'.proc p).pid = (s.proc p).pid)
    (hlive : ProcState.live (s.state y) → ProcState.live t.state)
    (hembryo : t.state = .embryo → s.state y = .embryo ∨
      ∃ c x stack tid caller, s'.cpu c = .run x stack (.allocTid y tid caller)) : Quiet s s' := by
  have hself := self_of_update hthread
  have hstay : ∀ {z}, z ≠ y → s'.thread z = s.thread z := stay_of_update hthread
  refine .of_lists (fun z hz => ?_) (fun z hz => ?_) hcreated hterm hjoined fun p _ => hpid p
  · by_cases hzy : z = y
    · subst hzy
      rw [State.state, hself]
      exact hlive hz
    · rwa [State.state, hstay hzy]
  · by_cases hzy : z = y
    · subst hzy
      rw [State.state, hself] at hz
      exact hembryo hz
    · rw [State.state, hstay hzy] at hz
      exact Or.inl hz

structure SameJoins (s s' : State n) : Prop where
  nexttid : s'.nexttid = s.nexttid
  created : s'.created = s.created
  terminated : s'.terminated = s.terminated
  joined : s'.joined = s.joined

theorem Joins.wake (h : Joins s) (hw : Wakes s s') (hs : SameJoins s s') : Joins s' := by
  have htid : ∀ y, (s'.thread y).tid = (s.thread y).tid := by
    intro y
    rcases hw.thread y with heq | ⟨-, heq⟩ <;> rw [heq]
  have hused : ∀ y, ProcState.used (s.state y) → ProcState.used (s'.state y) := by
    intro y hy
    rcases hw.woken.state y with heq | ⟨-, heq⟩
    · rwa [heq]
    · simp [heq]
  have hzombie : ∀ y, s'.state y = .zombie ↔ s.state y = .zombie :=
    fun y => hw.woken.state_eq (by decide) (by decide)
  have hpending : ∀ y, Pending s y → Pending s' y := by
    intro y hy hdead
    rw [hw.cpu]
    exact hy ((hzombie y).mp hdead)
  have hrefs : ∀ {z pc}, JoinRefs s z pc → JoinRefs s' z pc := by
    intro z pc hrefs
    refine hrefs.frame (fun y _ => htid y) (fun y _ _ => htid y) ?_ (fun _ => by rw [hw.proc])
      (fun y _ _ => hused y) (fun y _ => hpending y)
    rw [hs.created]
    exact fun _ hmem => hmem
  refine ⟨hs.nexttid ▸ h.nexttid, fun y => ?_, fun y z => ?_, fun id pid hmem => ?_,
    fun y pid hembryo hmem => ?_, fun pid id hmem => ?_, ⟨fun c z stack' pc'' hrun => ?_,
    fun z hnone => ?_⟩⟩
  · rw [htid, hs.nexttid]
    exact h.fresh y
  · rw [htid, htid]
    exact h.unique y z
  · rw [hs.created] at hmem
    obtain ⟨hpos, hlt, hcase⟩ := h.created id pid hmem
    refine ⟨hpos, hs.nexttid ▸ hlt, hcase.imp (fun hterm => hs.terminated ▸ hterm) ?_⟩
    rintro ⟨y, hy, hlive⟩
    exact ⟨y, (htid y).trans hy, hused y hlive.1, fun hdead => hlive.2 ((hzombie y).mp hdead)⟩
  · rw [htid, hs.created] at hmem
    rw [hw.cpu]
    exact h.embryo y pid ((hw.woken.state_eq (by decide) (by decide)).mp hembryo) hmem
  · rw [hs.created, hs.terminated]
    exact h.joined pid id (hs.joined ▸ hmem)
  · rw [hw.cpu] at hrun
    exact hrefs (h.locals.running c z stack' pc'' hrun)
  · have hold := h.locals.resting z (hw.cpu ▸ hnone)
    refine ⟨fun hready => ?_, fun y id hsleeping hresume => ?_⟩
    · rw [(hw.woken.other z).2]
      exact hrefs (hold.refs (hw.woken.ready hready))
    · rcases hw.thread z with heq | ⟨-, heq⟩
      · rw [State.state, heq] at hsleeping
        rw [heq] at hresume ⊢
        obtain ⟨hchan, hpend⟩ := hold.sleeping y id hsleeping hresume
        exact ⟨hchan, hpending y hpend⟩
      · simp [State.state, heq] at hsleeping

end

variable {id : Int}

theorem Joins.used_of_locked (h : Joins s) (hinv : Inv s)
    (hcpu : s.cpu c = .run x stack (.joinUsed y id)) (hy : s.state y ≠ .unused) :
    ProcState.used (s.state y) := by
  have hrefs := h.locals.running c x stack _ hcpu
  have hnear : y.1 = x.1 := (hinv.refs c x stack _ hcpu).near
  refine ⟨hy, fun hembryo => ?_⟩
  have hcreated := hrefs.asks y id rfl
  rw [← hrefs.finds y id rfl] at hcreated
  obtain ⟨c', z, stack', tid, caller, hrun⟩ := h.embryo y _ hembryo hcreated
  have hsame : c' = c := by
    refine (hinv.locks y.1).same ?_ ?_
    · rw [hrun]
      rfl
    · rw [hcpu, hnear]
      rfl
  subst hsame
  cases hcpu.symm.trans hrun

theorem Moves.unnumbered (h : Moves s x pc pc') :
    (Cpu.run x stack pc).numbering = none ∧ (Cpu.run x stack pc).leaving = none := by
  cases h with
  | wait _ hpc | waitPanic _ hpc => rcases hpc with ⟨rfl, -⟩ | rfl <;> exact ⟨rfl, rfl⟩
  | _ => exact ⟨rfl, rfl⟩

theorem Moves.joinRefs (h : Joins s) (hinv : Inv s) (hcpu : s.cpu c = .run x stack pc)
    (hmoves : Moves s x pc pc')
    (hasked : ∀ y id, pc = .joinFound y id → (id, (s.proc x.1).pid) ∈ s.created) :
    JoinRefs s x pc' := by
  have hrefs := h.locals.running c x stack pc hcpu
  cases hmoves
  case tick k _ => exact hrefs.congr rfl rfl rfl rfl (by simp [Pc.sleeps])
  case stay k => exact hrefs
  case copied y => exact hrefs.congr rfl rfl rfl rfl (by simp [Pc.sleeps])
  case join y id hy hid =>
    refine ⟨by simp [Pc.numbers], fun y' id' heq => ?_, by simp [Pc.asks, Pc.joins],
      by simp [Pc.joins], by simp [Pc.sleeps]⟩
    cases heq
    exact hid
  case joinZombie y id hy =>
    refine ⟨by simp [Pc.numbers], hrefs.finds, fun y' id' heq => ?_, fun y' id' heq => ?_,
      by simp [Pc.sleeps]⟩
    · cases heq
      exact hasked y id rfl
    · cases heq
      exact ⟨by simp [hy], by simp [hy]⟩
  case joinUsed y id =>
    refine ⟨by simp [Pc.numbers], hrefs.finds, fun y' id' heq => ?_, by simp [Pc.joins],
      by simp [Pc.sleeps]⟩
    cases heq
    exact hasked y id rfl
  case joinWait y id hy =>
    refine ⟨by simp [Pc.numbers], hrefs.finds, hrefs.asks, fun y' id' heq => ?_,
      by simp [Pc.sleeps]⟩
    cases heq
    exact h.used_of_locked hinv hcpu hy
  case loopZombie y id hy => exact hrefs.congr rfl rfl rfl rfl (by simp [Pc.sleeps])
  case loopSleep y id hy =>
    refine hrefs.congr rfl rfl rfl rfl fun y' heq => ?_
    cases heq
    exact ⟨fun hzombie => absurd hzombie hy, trivial⟩
  case joinSleep y id =>
    refine hrefs.congr rfl rfl rfl rfl fun y' heq => ?_
    cases heq
    exact ⟨(hrefs.sleeps y rfl).1, rfl⟩
  case rejoin y id => exact hrefs.congr rfl rfl rfl rfl (by simp [Pc.sleeps])
  case call syscall _ => cases syscall <;> exact .plain rfl rfl
  all_goals exact .plain rfl rfl

section

variable {t : Thread}

theorem near_of_finds (h : Refs s x pc) (hfinds : pc.finds = some (y, id)) :
    y.1 = x.1 := by
  have hnear := h.near
  have hcode : ∀ {k : Code}, k.joins = some (y, id) → k.near x → y.1 = x.1 := by
    intro k hk hnear
    cases k <;> simp_all [Code.near]
  cases pc <;>
    simp only [Pc.finds, Pc.joins, Option.some.injEq, Prod.mk.injEq, reduceCtorEq] at hfinds
  case code k => exact hcode hfinds hnear
  case yielding k => exact hcode hfinds hnear
  case sleeping chan k => exact hcode hfinds hnear
  all_goals
    obtain ⟨rfl, -⟩ := hfinds
    exact hnear

theorem near_of_joins (h : Refs s x pc) (hjoins : pc.joins = some (y, id)) :
    y.1 = x.1 := by
  refine near_of_finds h (?_ : pc.finds = some (y, id))
  cases pc <;> simp_all [Pc.finds, Pc.joins]

theorem joins_or_locked (x : Slot) (hfinds : pc.finds = some (y, id)) :
    pc.joins = some (y, id) ∨ pc.lock x = some x.1 := by
  cases pc <;> simp_all [Pc.finds, Pc.joins, Pc.lock]

theorem joins_of_sleeps (h : pc.sleeps = some y) : ∃ id, pc.joins = some (y, id) := by
  cases pc <;> simp only [Pc.sleeps, Option.some.injEq, reduceCtorEq] at h
  case joinSleep y' id =>
    subst h
    exact ⟨id, rfl⟩
  case sleeping chan k =>
    cases k <;> simp only [Option.some.injEq, reduceCtorEq] at h
    subst h
    exact ⟨_, rfl⟩

theorem Unjoined.of_unjoined (h : Inv s) (hy : s.unjoined c y) : Unjoined s c y where
  cpus := fun c' z stack' pc'' id hne hrun hjoins => by
    refine hy.1 c' hne ?_
    rw [hrun, Cpu.joining, hjoins, Option.map_some]
  resting := fun z id hnone hready hjoins => by
    have hz : (y.1, z.2) = z := by rw [near_of_joins (h.saved z hready hnone) hjoins]
    have hresting := hy.2 z.2
    rw [hz] at hresting
    exact hresting (hnone c) hready (by rw [hjoins, Option.map_some])

theorem left_states {old new : ProcState}
    (h : new = old ∨ new = .runnable ∨ new = .sleeping) :
    (ProcState.live old → ProcState.live new) ∧ (ProcState.used old → ProcState.used new) ∧
      (new = .zombie → old = .zombie) ∧ (new = .embryo → old = .embryo) := by
  rcases h with rfl | rfl | rfl <;> simp

theorem Joins.leave (h : Joins s) (hinv : Inv s) (hcpu : s.cpu c = .run x stack pc)
    (hs : SameJoins s s') (hproc : s'.proc = s.proc)
    (hthread : s'.thread = update s.thread x t) (htid : t.tid = (s.thread x).tid)
    (hcpu' : s'.cpu = update s.cpu c .scheduling)
    (hc : (s.cpu c).numbering = none ∧ (s.cpu c).leaving = none)
    (hstate : t.state = s.state x ∨ t.state = .runnable ∨ t.state = .sleeping)
    (hrefs : t.state = .runnable ∨ t.state = .sleeping → JoinRefs s x t.context.resume.pc)
    (hsleeping : ∀ y id, t.state = .sleeping → t.context.resume = .slept (.rejoin y id) →
      t.chan = some (.thread y) ∧ Pending s y) : Joins s' := by
  have hself := self_of_update hthread
  have hstay : ∀ {y}, y ≠ x → s'.state y = s.state y := by
    intro y hy
    rw [State.state, hthread, update_of_ne hy, State.state]
  obtain ⟨hlive, hused, hzombie, hembryo⟩ := left_states hstate
  have htids : ∀ y, (s'.thread y).tid = (s.thread y).tid := by
    rw [hthread]
    exact field_update Thread.tid htid
  have hpending : ∀ {y}, Pending s y → Pending s' y := by
    intro y hy
    refine hy.keep hcpu' hc.2 fun hdead => ?_
    by_cases hyx : y = x
    · subst hyx
      rw [State.state, hself] at hdead
      exact hzombie hdead
    · rwa [hstay hyx] at hdead
  refine h.store hinv (.of_store hthread hs.created hs.terminated (by simp +contextual [hs.joined])
    (by simp [hproc]) hlive fun heq => Or.inl (hembryo heq)) hthread htid hs.nexttid hcpu' hc
    (fun hu => Or.inl (hused hu)) (fun hdead => Or.inl (hzombie hdead)) ?_
    ⟨fun hready => ?_, fun y id hstate' hresume => ?_⟩ (fun _ _ _ heq => by cases heq)
  · intro z hz hne
    exact absurd (Option.some.inj ((cpu_thread hcpu).symm.trans hz)).symm hne
  · rw [State.ready, State.state, hself] at hready
    rw [hself]
    refine (hrefs hready).frame (fun y _ => htids y) (fun y _ _ => htids y) (by simp [hs.created])
      (fun _ => by rw [hproc]) (fun y _ _ hu => ?_) (fun y _ => hpending)
    by_cases hy : y = x
    · subst hy
      rw [State.state, hself]
      exact hused hu
    · rwa [hstay hy]
  · rw [State.state, hself] at hstate'
    rw [hself] at hresume ⊢
    obtain ⟨hchan, hpend⟩ := hsleeping y id hstate' hresume
    exact ⟨hchan, hpending hpend⟩

theorem Joins.sweep {p : Fin nproc} (h : Joins s) (hinv : Inv s) (hq : Quiet s s')
    (htid : ∀ y, (s'.thread y).tid = (s.thread y).tid) (hnexttid : s'.nexttid = s.nexttid)
    (hother : ∀ z : Slot, z.1 ≠ p → s'.thread z = s.thread z)
    (hdead : ∀ z : Slot, z.1 = p → ProcState.dead (s'.state z))
    (hout : ∀ c' z, c' ≠ c → (s.cpu c').thread = some z → z.1 ≠ p)
    (hcpu : s.cpu c = .run x stack pc)
    (hc : (s.cpu c).numbering = none ∧ (s.cpu c).leaving = none)
    (hcpu' : s'.cpu = update s.cpu c (.run x stack pc')) (hrefs : JoinRefs s' x pc') :
    Joins s' := by
  have hpending : ∀ {y : Slot}, y.1 ≠ p → Pending s y → Pending s' y := by
    intro y hy hpend
    exact hpend.keep hcpu' hc.2 fun hdead' => by rwa [State.state, hother y hy] at hdead'
  refine h.quiet hinv hq htid hnexttid hcpu' hc.1 ?_ ?_ (fun z hnone => ?_) ?_ ?_
  · intro c' z stack' pc'' hne hrun y id hy hused
    have hz := hout c' z hne (cpu_thread hrun)
    rw [← near_of_joins (hinv.refs c' z stack' pc'' hrun) hy] at hz
    rwa [State.state, hother y hz]
  · intro c' z stack' pc'' hne hrun y hy
    obtain ⟨id, hjoins⟩ := joins_of_sleeps hy
    have hz := hout c' z hne (cpu_thread hrun)
    rw [← near_of_joins (hinv.refs c' z stack' pc'' hrun) hjoins] at hz
    exact hpending hz
  · by_cases hz : z.1 = p
    · refine Or.inl ⟨fun hready => ?_, fun y id hsleeping => ?_⟩
      · rcases hdead z hz with heq | heq <;> simp [heq] at hready
      · rcases hdead z hz with heq | heq <;> simp [heq] at hsleeping
    · have hready : s'.ready z → s.ready z := fun hr => by
        rwa [State.ready, State.state, hother z hz] at hr
      refine Or.inr ⟨⟨fun hr => ⟨hready hr, by rw [hother z hz]⟩, fun hr => ?_⟩, fun y id hy =>
        ⟨fun hr hused => ?_, fun hr _ => ?_⟩⟩
      · rw [State.state, hother z hz] at hr
        exact ⟨hr, by rw [hother z hz]⟩
      · have hyz := near_of_joins (hinv.saved z (hready hr) hnone) hy
        rwa [State.state, hother y (hyz ▸ hz)]
      · have hyz := near_of_joins (hinv.saved z (hready (Or.inr hr)) hnone) hy
        exact hpending (hyz ▸ hz)
  · intro z hz hne
    exact absurd ((cpu_thread hcpu).symm.trans hz) hne
  · intro z stack' pc'' heq
    cases heq
    exact hrefs

section

variable (hinv : Inv s) (h : Joins s)
include hinv h

theorem joins_exit (hcpu : s.cpu c = .run x stack (.code (.work .exit))) (halone : s.alone c x.1) :
    Joins (exit s c x stack) := by
  obtain ⟨-, -, -, hcreated, hjoined, hnexttid⟩ := exit_kept s c x stack
  have hothers := exit_others s c x stack
  have hterm : (exit s c x stack).terminated =
      (exitMarks s x.1).map (fun y => (s.thread y).tid) ++ s.terminated := by
    simp only [exit, State.setCpu]
  have hstay : ∀ y : Slot, y.1 ≠ x.1 → (exit s c x stack).thread y =
      if y.1 = x.1 then s.thread y else (exit s c x stack).thread y := fun y hy => (if_neg hy).symm
  have hdead : ∀ y : Slot, y.1 = x.1 → ProcState.dead ((exit s c x stack).state y) := by
    intro y hy
    rw [State.state, exit_own hy]
    split
    · exact Or.inl ‹_›
    · exact Or.inr rfl
  refine (h.wake hothers ⟨rfl, rfl, rfl, rfl⟩).sweep (hinv.wake hothers) ?_ ?_ hnexttid hstay hdead
    ?_ hcpu (by rw [hcpu]; exact ⟨rfl, rfl⟩) (exit_cpu s c x stack) (.plain rfl rfl)
  · refine ⟨fun y hy => ?_, fun y hy => Or.inl ?_, by simp [hcreated], by simp +contextual
      [hcreated], fun _ hmem => hterm ▸ List.mem_append_right _ hmem, by simp +contextual [hjoined],
      fun p _ => (exit_proc s c x stack p).2.1⟩
    · by_cases hyx : y.1 = x.1
      · right
        simp only [State.state, hyx, if_true] at hy ⊢
        have hmarked : y ∈ exitMarks s x.1 := by
          refine List.mem_filter.mpr ⟨List.mem_map.mpr ⟨y.2, List.mem_finRange _, ?_⟩, ?_⟩
          · rw [← hyx]
          · exact decide_eq_true hy.1.1
        rw [hterm]
        exact List.mem_append_left _ (List.mem_map.mpr ⟨y, hmarked, rfl⟩)
      · left
        rw [State.state, hstay y hyx]
        exact hy
    · by_cases hyx : y.1 = x.1
      · rcases hdead y hyx with heq | heq <;> simp [heq] at hy
      · rwa [State.state, hstay y hyx] at hy
  · intro y
    by_cases hyx : y.1 = x.1
    · simp only [hyx, if_true]
      rw [exit_own hyx]
      split <;> rfl
    · rw [hstay y hyx]
  · intro c' z hne hrun hz
    refine halone c' hne ?_
    change (s.cpu c').thread = some z at hrun
    rw [hrun, Option.map_some, hz]

theorem joins_allocproc {p : Fin nproc}
    (hcpu : s.cpu c = .run x stack (.code .allocproc)) (hp : s.pstate p = .unused) :
    Joins (allocprocAt s c x stack p) := by
  have hstay : ∀ y : Slot, y.1 ≠ p → (allocprocAt s c x stack p).thread y = s.thread y :=
    fun y hy => if_neg hy
  have hunused : ∀ y : Slot, y.1 = p → (allocprocAt s c x stack p).state y = .unused := by
    intro y hy
    simp [allocprocAt, State.setLock, State.state, hy]
  refine h.sweep hinv (p := p) ?_ (fun y => ?_) rfl hstay (fun y hy => Or.inl (hunused y hy)) ?_
    hcpu (by rw [hcpu]; exact ⟨rfl, rfl⟩) rfl (.plain rfl rfl)
  · refine .of_lists (fun y hy => ?_) (fun y hy => Or.inl ?_) rfl rfl (fun _ hmem => Or.inl hmem)
      fun q hq => ?_
    · have hyp : y.1 ≠ p := by
        intro heq
        rcases hinv.dead_of_dead (by simp [hp]) heq with hdead | hdead
        · exact hy.1.1 hdead
        · exact hy.2 hdead
      rwa [State.state, hstay y hyp]
    · by_cases hyp : y.1 = p
      · simp [hunused y hyp] at hy
      · rwa [State.state, hstay y hyp] at hy
    · have hqp : q ≠ p := by
        rintro rfl
        simp [hp] at hq
      simp [allocprocAt, State.setLock, update_of_ne hqp]
  · simp only [allocprocAt, State.setCpu, State.setLock]
    split <;> rfl
  · intro c' z _ hrun hz
    obtain ⟨stack', pc', hrun⟩ := exists_run hrun
    have := hinv.alive c' z stack' pc' hrun
    simp [hz, hp] at this

theorem joins_switchTo (hcpu : s.cpu c = .scheduling)
    (hx : s.state x = .runnable) : Joins (switchTo s c x) := by
  have hnone := hinv.off_of_runnable hcpu hx
  have hstay : ∀ {y}, y ≠ x → (switchTo s c x).thread y = s.thread y :=
    fun hy => update_of_ne hy ..
  have hrunning := state_switchTo s c x
  have hidle : (s.cpu c).numbering = none ∧ (s.cpu c).leaving = none := by
    rw [hcpu]
    exact ⟨rfl, rfl⟩
  have htid : ∀ y, ((switchTo s c x).thread y).tid = (s.thread y).tid := field_update Thread.tid rfl
  refine h.store hinv (.of_store rfl rfl rfl (fun _ => Or.inl) (fun _ => rfl) ?_ (by simp)) rfl rfl
    rfl rfl hidle ?_ (by simp) ?_
    ⟨fun hr => ?_, fun _ _ hr => ?_⟩ ?_
  · intro _
    simp
  · intro _
    simp
  · intro z hz
    simp [hcpu, Cpu.thread] at hz
  · simp [hrunning] at hr
  · simp [hrunning] at hr
  · intro z stack' pc' heq
    cases heq
    refine ((h.locals.resting x hnone).refs (Or.inl hx)).frame (fun y _ => htid y)
      (fun y _ _ => htid y) (fun _ hmem => hmem) (fun _ => rfl) (fun y _ _ hused => ?_)
      (fun y _ hpend => hpend.keep rfl hidle.2 fun hdead => ?_)
    · by_cases hy : y = x
      · subst hy
        simp [hrunning]
      · rwa [State.state, hstay hy]
    · by_cases hy : y = x
      · subst hy
        simp [hrunning] at hdead
      · rwa [State.state, hstay hy] at hdead

theorem joins_allocTid {tid : Int} {caller : Caller}
    (hcpu : s.cpu c = .run x stack (.allocTid y tid caller)) (htid : s.nexttid = tid) :
    Joins (allocTid s c x stack y tid caller) := by
  obtain ⟨hembryo, hmaker⟩ := (hinv.refs c x stack _ hcpu).makes y rfl
  have hself : (allocTid s c x stack y tid caller).thread y = { s.thread y with tid := tid } :=
    update_self ..
  have hstay : ∀ {z}, z ≠ y → (allocTid s c x stack y tid caller).thread z = s.thread z :=
    fun hz => update_of_ne hz ..
  have hstate : ∀ z, (allocTid s c x stack y tid caller).state z = s.state z :=
    field_update Thread.state rfl
  have hcpus : (allocTid s c x stack y tid caller).cpu =
      update s.cpu c (.run x stack (.code (.kalloc y caller))) := rfl
  have hnext : (allocTid s c x stack y tid caller).nexttid = tid + 1 := rfl
  have hpending : ∀ {z}, Pending s z → Pending (allocTid s c x stack y tid caller) z := by
    intro z hz
    exact hz.keep hcpus (by rw [hcpu]; rfl) fun hdead => hstate z ▸ hdead
  have hpos := h.nexttid
  -- nobody else refers to the entry: it is locked, and being made by this thread
  have hframe : ∀ {z pc}, Refs s z pc → JoinRefs s z pc → z ≠ x →
      (∀ id, pc.finds = some (y, id) → pc.joins = some (y, id)) →
      JoinRefs (allocTid s c x stack y tid caller) z pc := by
    intro z pc hrefs hjoin hzx hfinds
    refine hjoin.frame (fun y' hy' => ?_) (fun y' id hy' => ?_) (fun _ hmem => hmem) (fun _ => rfl)
      (fun y' _ _ hused => hstate y' ▸ hused) (fun _ _ => hpending)
    · have hne : y' ≠ y := by
        rintro rfl
        have hmade := (hrefs.makes y' (makes_of_numbers hy')).2
        exact hzx (Option.some.inj (hmade.symm.trans hmaker))
      rw [hstay hne]
    · have hne : y' ≠ y := by
        rintro rfl
        exact (hjoin.joins y' id (hfinds id hy')).2 hembryo
      rw [hstay hne]
  refine ⟨by omega, fun z => ?_, fun z z' => ?_, fun id pid hmem => ?_, fun z pid hz hmem => ?_,
    h.joined, h.locals.step hcpus ?_ ?_ ?_ ?_⟩
  · rw [hnext]
    have := h.fresh z
    by_cases hz : z = y
    · rw [hz, hself]
      exact Int.lt_succ tid
    · rw [hstay hz]
      omega
  · have hz := h.fresh z
    have hz' := h.fresh z'
    by_cases hzy : z = y <;> by_cases hzy' : z' = y
    · rw [hzy, hzy']
      exact fun _ _ => rfl
    · rw [hzy, hself, hstay hzy']
      intro heq
      simp only at heq
      omega
    · rw [hzy', hself, hstay hzy]
      intro heq
      simp only at heq
      omega
    · rw [hstay hzy, hstay hzy']
      exact h.unique z z'
  · obtain ⟨hpos, hlt, hcase⟩ := h.created id pid hmem
    refine ⟨hpos, by omega, hcase.imp_right ?_⟩
    rintro ⟨z, hz, hlive⟩
    have hne : z ≠ y := by
      rintro rfl
      exact hlive.1.2 hembryo
    exact ⟨z, by rw [hstay hne, hz], hstate z ▸ hlive⟩
  · by_cases hzy : z = y
    · rw [hzy, hself] at hmem
      have := (h.created _ _ hmem).2.1
      simp only at this
      omega
    · rw [hstay hzy] at hmem
      obtain ⟨c', x', stack', tid', caller', hrun⟩ := h.embryo z pid (hstate z ▸ hz) hmem
      have hne : c' ≠ c := by
        rintro rfl
        cases hcpu.symm.trans hrun
        exact hzy rfl
      exact ⟨c', x', stack', tid', caller', by rw [hcpus, update_of_ne hne, hrun]⟩
  · intro c' z stack' pc'' hne hrun hjoin
    have hrefs := hinv.refs c' z stack' pc'' hrun
    refine hframe hrefs hjoin ?_ fun id hfinds => ?_
    · rintro rfl
      exact hne (hinv.unique c' c z (cpu_thread hrun) (cpu_thread hcpu))
    · refine (joins_or_locked z hfinds).resolve_right fun hlock => ?_
      refine hne ((hinv.locks y.1).same ?_ ?_)
      · rw [hrun, near_of_finds hrefs hfinds]
        exact hlock
      · rw [hcpu]
        rfl
  · intro z hnone _ hold
    have hzy : s.ready z → z ≠ y := by
      rintro hready rfl
      simp [hembryo] at hready
    refine ⟨fun hready => ?_, fun y' id hsleeping hresume => ?_⟩
    · rw [State.ready, hstate] at hready
      rw [hstay (hzy hready)]
      refine hframe (hinv.saved z hready hnone) (hold.refs hready) ?_ fun id hfinds => ?_
      · rintro rfl
        exact hnone c (cpu_thread hcpu)
      · rwa [resume_finds] at hfinds
    · rw [hstate] at hsleeping
      rw [hstay (hzy (Or.inr hsleeping))] at hresume ⊢
      exact (hold.sleeping y' id hsleeping hresume).imp_right hpending
  · intro z hz hne
    exact absurd ((cpu_thread hcpu).symm.trans hz) hne
  · intro z stack' pc'' heq
    cases heq
    refine ⟨fun y' hy' => ?_, by simp [Pc.finds, Pc.joins],
      by simp [Pc.asks, Pc.joins], by simp [Pc.joins], by simp [Pc.sleeps]⟩
    cases hy'
    rw [hself]
    simp only
    omega

/-- `kthread_exit` leaves its section: the sleeping joiners have been woken and
no other is about to sleep. -/
theorem joins_exitEnd {v : Cpu}
    (hcpu : s.cpu c = .run x stack .kthreadExiting)
    (hguard : ∀ c' z stack y id, s.cpu c' = .run z stack (.joinSleep y id) → y ≠ x)
    (hawake : ∀ z : Slot, z.1 = x.1 → (s.thread z).chan = some (.thread x) → s.state z ≠ .sleeping)
    (hs : SameJoins s s') (hproc : s'.proc = s.proc)
    (hthread : ∀ z, z ≠ x → s'.thread z = s.thread z)
    (hx : (s'.thread x).tid = (s.thread x).tid ∧ s'.state x = s.state x)
    (hcpu' : s'.cpu = update s.cpu c v)
    (hv : v = .scheduling ∧ (s'.thread x).context.resume = .zombie ∨
      ∃ pc, v = .run x stack pc ∧ pc.numbers = none ∧ pc.finds = none) : Joins s' := by
  have htid : ∀ z, (s'.thread z).tid = (s.thread z).tid := by
    intro z
    by_cases hz : z = x
    · rw [hz, hx.1]
    · rw [hthread z hz]
  have hstate : ∀ z, s'.state z = s.state z := by
    intro z
    by_cases hz : z = x
    · rw [hz, hx.2]
    · rw [State.state, hthread z hz, State.state]
  have hpending : ∀ {y}, y ≠ x → Pending s y → Pending s' y := by
    intro y hy hpend hdead
    obtain ⟨c', stack', hrun⟩ := hpend (hstate y ▸ hdead)
    have hne : c' ≠ c := by
      rintro rfl
      cases hcpu.symm.trans hrun
      exact hy rfl
    exact ⟨c', stack', by rw [hcpu', update_of_ne hne, hrun]⟩
  have hq : Quiet s s' := .of_lists (fun y hy => by rwa [hstate])
    (fun y hy => Or.inl (by rwa [hstate] at hy)) hs.created hs.terminated
    (by simp +contextual [hs.joined]) fun p _ => by rw [hproc]
  refine h.quiet hinv hq htid hs.nexttid hcpu' (by rw [hcpu]; rfl) ?_ ?_
    (fun z hnone => Or.inr ⟨?_, ?_⟩) ?_ ?_
  · intro _ _ _ _ _ _ y _ _ hused
    rwa [hstate]
  · intro c' z stack' pc'' hne hrun y hy
    refine hpending ?_
    cases pc'' <;> simp only [Pc.sleeps, Option.some.injEq, reduceCtorEq] at hy
    case joinSleep y' id =>
      subst hy
      exact hguard c' z stack' y' id hrun
    case sleeping chan k =>
      exact absurd (hinv.table.same (by rw [hrun]; rfl) (by rw [hcpu]; rfl)) hne
  · have hz : z ≠ x := by
      rintro rfl
      exact hnone c (cpu_thread hcpu)
    refine ⟨fun hready => ⟨?_, by rw [hthread z hz]⟩, fun hsleeping => ⟨?_, by rw [hthread z hz]⟩⟩
    · rwa [State.ready, hstate] at hready
    · rwa [hstate] at hsleeping
  · intro y id hy
    refine ⟨fun _ hused => by rwa [hstate], fun hsleeping hresume hpend => hpending ?_ hpend⟩
    rw [hstate] at hsleeping
    rintro rfl
    have hnear := near_of_joins (hinv.saved z (Or.inr hsleeping) hnone) hy
    have hchan := ((h.locals.resting z hnone).sleeping y id hsleeping hresume).1
    exact hawake z hnear.symm hchan hsleeping
  · intro z hz hne
    cases (cpu_thread hcpu).symm.trans hz
    rcases hv with ⟨-, hresume⟩ | ⟨pc', rfl, -⟩
    · refine ⟨fun _ => ?_, fun y id _ hresume' => ?_⟩
      · rw [hresume]
        exact .plain rfl rfl
      · rw [hresume] at hresume'
        cases hresume'
    · exact absurd rfl hne
  · intro z stack' pc'' heq
    rcases hv with ⟨rfl, -⟩ | ⟨pc', rfl, hnumbers, hfinds⟩
    · cases heq
    · cases heq
      exact .plain hnumbers hfinds

end

theorem Joins.terminated_of_dead {pid : Int} (h : Joins s) (hcreated : (id, pid) ∈ s.created)
    (hy : (s.thread y).tid = id) (hdead : ¬ ProcState.live (s.state y)) : id ∈ s.terminated := by
  obtain ⟨hpos, -, hcase⟩ := h.created id pid hcreated
  refine hcase.resolve_right ?_
  rintro ⟨z, hz, hlive⟩
  cases h.unique z y (hz.trans hy.symm) (hz ▸ hpos)
  exact hdead hlive

theorem Joins.keep (h : Joins s) (hinv : Inv s) (hq : Quiet s s')
    (hcpu : s.cpu c = .run x stack pc)
    (hc : (s.cpu c).numbering = none ∧ (s.cpu c).leaving = none)
    (hthread : s'.thread = update s.thread y t) (htid : t.tid = (s.thread y).tid)
    (hnexttid : s'.nexttid = s.nexttid)
    (hcpu' : s'.cpu = update s.cpu c (.run x stack pc'))
    (hused : ProcState.used (s.state y) → ProcState.used t.state ∨ Unjoined s c y)
    (hzombie : t.state ≠ .zombie) (hsleeping : t.state ≠ .sleeping)
    (hready : t.state = .runnable →
      t.context.resume.pc.numbers = none ∧ t.context.resume.pc.finds = none)
    (hrefs : JoinRefs s' x pc') : Joins s' := by
  have hself := self_of_update hthread
  refine h.store hinv hq hthread htid hnexttid hcpu' hc hused
    (fun hdead => absurd hdead hzombie) (fun z hz _ => (cpu_thread hcpu).symm.trans hz)
    ⟨fun hr => ?_, fun y' id hr => ?_⟩ ?_
  · rw [State.ready, State.state, hself] at hr
    rw [hself]
    obtain ⟨hnumbers, hfinds⟩ := hready (hr.resolve_right hsleeping)
    exact .plain hnumbers hfinds
  · rw [State.state, hself] at hr
    exact absurd hr hsleeping
  · intro z stack' pc'' heq
    cases heq
    exact hrefs

section

variable (hinv : Inv s) (h : Joins s) (hcpu : s.cpu c = .run x stack pc)
include hinv h hcpu

theorem joins_reap (hpc : pc.reaps = some y) (hguard : s.unjoined c y)
    (hthread : s'.thread =
      update s.thread y { s.thread y with kstack := 0, state := .unused })
    (hproc : s'.proc = s.proc) (hnexttid : s'.nexttid = s.nexttid)
    (hcreated : s'.created = s.created) (hterm : s'.terminated = s.terminated)
    (hjoined : ∀ e ∈ s'.joined, e ∈ s.joined ∨ (e.2, e.1) ∈ s.created ∧ e.2 ∈ s.terminated)
    (hcpu' : s'.cpu = update s.cpu c (.run x stack pc'))
    (hnumbers : pc'.numbers = none) (hfinds : pc'.finds = none) : Joins s' := by
  have hzombie := (hinv.refs c x stack pc hcpu).reaps y hpc
  have hc : (s.cpu c).numbering = none ∧ (s.cpu c).leaving = none := by
    rw [hcpu]
    cases pc <;> first | exact ⟨rfl, rfl⟩ | cases hpc
  refine h.keep hinv (.of_store hthread hcreated hterm hjoined (by simp [hproc]) ?_ (by simp)) hcpu
    hc hthread rfl hnexttid hcpu' (fun _ => Or.inr (.of_unjoined hinv hguard)) (by simp)
    (by simp) (by simp) (.plain hnumbers hfinds)
  exact fun hlive => absurd hzombie hlive.2

theorem joins_start {pid : Int}
    (hy : pc.readies = some y)
    (hc : (s.cpu c).numbering = none ∧ (s.cpu c).leaving = none)
    (hthread : s'.thread = update s.thread y { s.thread y with state := .runnable })
    (hpid : ∀ p, (s'.proc p).pid = (s.proc p).pid) (hnexttid : s'.nexttid = s.nexttid)
    (hcreated : s'.created = ((s.thread y).tid, pid) :: s.created)
    (hterm : s'.terminated = s.terminated) (hjoined : s'.joined = s.joined)
    (hcpu' : s'.cpu = update s.cpu c (.run x stack (.code (.work .syscall)))) :
    Joins s' := by
  have hnumbers := numbers_of_readies hy
  have hembryo := ((hinv.refs c x stack pc hcpu).makes y (makes_of_readies hy)).1
  have hstay : ∀ {z}, z ≠ y → s'.thread z = s.thread z := stay_of_update hthread
  have hrunnable : s'.state y = .runnable := by
    rw [State.state, hthread, update_self]
  refine h.keep hinv ?_ hcpu hc hthread rfl hnexttid hcpu'
    (fun _ => Or.inl (by simp)) (by simp) (by simp) (fun _ => ?_) (.plain rfl rfl)
  · refine ⟨fun z hz => Or.inl ?_, fun z hz => Or.inl ?_, by simp +contextual [hcreated],
      fun e hmem => ?_, by simp [hterm], by simp +contextual [hjoined], fun p _ => hpid p⟩
    · have hne : z ≠ y := by
        rintro rfl
        exact hz.1.2 hembryo
      rwa [State.state, hstay hne]
    · have hne : z ≠ y := by
        rintro rfl
        simp [hrunnable] at hz
      rwa [State.state, hstay hne] at hz
    · rw [hcreated] at hmem
      rcases List.mem_cons.mp hmem with rfl | hold
      · refine Or.inr ⟨y, rfl, (h.locals.running c x stack pc hcpu).numbers y hnumbers, ?_⟩
        simp [hrunnable]
      · exact Or.inl hold
  · rcases (hinv.refs c x stack pc hcpu).readies y hy with heq | heq <;> simp only [heq] <;>
      exact ⟨rfl, rfl⟩

theorem joins_giveBack (hy : pc.numbers = some y)
    (hc : (s.cpu c).numbering = none ∧ (s.cpu c).leaving = none)
    (hthread : s'.thread =
      update s.thread y { s.thread y with kstack := 0, state := .unused })
    (hs : SameJoins s s') (hpid : ∀ p, (s'.proc p).pid = (s.proc p).pid)
    (hcpu' : s'.cpu = update s.cpu c (.run x stack (.code (.work .syscall)))) :
    Joins s' := by
  have hembryo := ((hinv.refs c x stack pc hcpu).makes y (makes_of_numbers hy)).1
  exact h.keep hinv (.of_store hthread hs.created hs.terminated (by simp +contextual [hs.joined])
    hpid (fun hlive => absurd hembryo hlive.1.2) (by simp)) hcpu hc hthread rfl hs.nexttid
    hcpu' (fun hused => absurd hembryo hused.2) (by simp) (by simp) (by simp) (.plain rfl rfl)

end

end

theorem joins_step {a : Act n} (hinv : Inv s) (h : Joins s) (hguard : JoinsApart s a)
    (hstep : step s a = some s') : Joins s' := by
  obtain ⟨hcalm, hask, hreap, hleave, hnumber⟩ := hguard
  cases effect_step hstep with
  | moves x stack pc pc' _ hcpu hkept hcpu' hmoves =>
    refine h.same hinv (fun y => ?_) hkept.nexttid hkept.created hkept.terminated ?_
      (fun p _ => hkept.pid p) hcpu' (by rw [cpu_thread hcpu]; rfl)
      (by rw [hcpu]; exact hmoves.unnumbered) ?_
    · rw [State.state, hkept.thread]
      exact ⟨rfl, rfl, fun _ => rfl, rfl⟩
    · rw [hkept.joined]
      exact fun _ hmem => Or.inl hmem
    · intro z stack' pc'' heq
      cases heq
      refine ⟨hmoves.joinRefs h hinv hcpu fun y id hpc => ?_, hinv.runnable hcpu hmoves.settled.1⟩
      subst hpc
      exact hask (x, id) (by rw [hcpu]; rfl)
  | acquire hcpu | release hcpu =>
    exact h.same hinv (fun _ => ⟨rfl, rfl, fun _ => rfl, rfl⟩) rfl rfl rfl
      (fun _ hmem => Or.inl hmem) (fun _ _ => rfl) rfl (by rw [hcpu]; rfl)
      (by rw [hcpu]; exact ⟨rfl, rfl⟩) (fun _ _ _ heq => by cases heq)
  | switchTo x hcpu hx => exact joins_switchTo hinv h hcpu hx
  | wakeup chan => exact h.wake (wakes_wakeup1 s _) ⟨rfl, rfl, rfl, rfl⟩
  | take x stack mode hold hcpu => exact h.wake (.of_eq rfl rfl rfl rfl rfl) ⟨rfl, rfl, rfl, rfl⟩
  | beginOp x stack mode hcpu => exact h.wake (.of_eq rfl rfl rfl rfl rfl) ⟨rfl, rfl, rfl, rfl⟩
  | drop x hold | endOp x => exact h.wake (.of_eq rfl rfl rfl rfl rfl) ⟨rfl, rfl, rfl, rfl⟩
  | yield x stack k hcpu =>
    have hrefs := h.locals.running _ x stack _ hcpu
    refine h.leave hinv hcpu ⟨rfl, rfl, rfl, rfl⟩ rfl (yield_thread s _ x stack k) rfl rfl
      (by rw [hcpu]; exact ⟨rfl, rfl⟩) (by simp) (fun _ => ?_) (by simp)
    exact hrefs.congr rfl rfl rfl rfl (by simp [Resume.pc, Pc.sleeps])
  | sleep x stack chan k hcpu =>
    have hrefs := h.locals.running _ x stack _ hcpu
    refine h.leave hinv hcpu ⟨rfl, rfl, rfl, rfl⟩ rfl (sleep_thread s _ x stack chan k) rfl rfl
      (by rw [hcpu]; exact ⟨rfl, rfl⟩) (by simp) (fun _ => ?_) (fun y id _ hresume => ?_)
    · exact hrefs.congr rfl rfl rfl rfl (by simp [Resume.pc, Pc.sleeps])
    · cases hresume
      obtain ⟨hpending, hchan⟩ := hrefs.sleeps y rfl
      exact ⟨congrArg some hchan, hpending⟩
  | waitSleep x stack pc hcpu hpc =>
    refine h.leave hinv hcpu ⟨rfl, rfl, rfl, rfl⟩ rfl (waitSleep_thread s _ x stack) rfl rfl ?_
      (by simp) (fun _ => .plain rfl rfl) (by simp)
    rw [hcpu]
    rcases hpc with ⟨rfl, -⟩ | rfl <;> exact ⟨rfl, rfl⟩
  | waitReap x stack pc q hcpu hpc hq hgood =>
    refine h.same hinv (fun y => ?_) rfl rfl rfl (fun _ hmem => Or.inl hmem) (fun p hp => ?_) rfl
      (by rw [cpu_thread hcpu]; rfl) ?_ ?_
    · simp only [waitReap, returnTo, State.setCpu, State.setProc, State.state]
      split <;> exact ⟨rfl, rfl, fun _ => rfl, rfl⟩
    · have hne : p ≠ q := by
        rintro rfl
        simp [zombieChild_some hq] at hp
      simp [waitReap, returnTo, State.setProc, update_of_ne hne]
    · rw [hcpu]
      rcases hpc with ⟨rfl, -⟩ | rfl <;> exact ⟨rfl, rfl⟩
    · intro z stack' pc' heq
      cases heq
      exact ⟨.plain rfl rfl, hinv.runnable hcpu (hpc.plain x).1⟩
  | allocproc x stack p hcpu hp => exact joins_allocproc hinv h hcpu hp
  | allocAbandoned x stack p hcpu =>
    refine h.same hinv (fun _ => ⟨rfl, rfl, fun _ => rfl, rfl⟩) rfl rfl rfl
      (fun _ hmem => Or.inl hmem) (fun q _ => ?_) rfl (by rw [cpu_thread hcpu]; rfl)
      (by rw [hcpu]; exact ⟨rfl, rfl⟩) ?_
    · exact field_update (v := { s.proc p with maker := none }) (f := s.proc) Proc.pid rfl q
    intro z stack' pc' heq
    cases heq
    exact ⟨.plain rfl rfl, hinv.runnable hcpu rfl⟩
  | allocFound x stack p i rest caller hcpu hi =>
    refine h.keep hinv (.of_store rfl rfl rfl (fun _ => Or.inl) (fun _ => rfl) ?_
      (fun _ => Or.inr ?_)) hcpu (by rw [hcpu]; exact ⟨rfl, rfl⟩) rfl rfl rfl rfl
      (fun hused => absurd hi hused.1) (by simp) (by simp) (by simp) (.plain rfl rfl)
    · exact fun hlive => absurd hi hlive.1.1
    · exact ⟨_, x, stack, s.nexttid, caller, update_self ..⟩
  | allocTid x stack y tid caller hcpu =>
    exact joins_allocTid hinv h hcpu (hnumber tid (by rw [hcpu]; rfl))
  | stackReady x stack y caller page hcpu hpage hfree =>
    have hrefs := h.locals.running _ x stack _ hcpu
    have hembryo := ((hinv.refs _ x stack _ hcpu).makes y rfl).1
    refine h.same hinv (fun z => ?_) rfl rfl rfl (fun _ hmem => Or.inl hmem) (fun _ _ => rfl) rfl
      (by rw [cpu_thread hcpu]; rfl) (by rw [hcpu]; exact ⟨rfl, rfl⟩) ?_
    · by_cases hz : z = y
      · subst hz
        simp [stackReady, State.state]
        exact fun hne => absurd hembryo hne
      · simp [stackReady, State.state, update_of_ne hz]
    · intro z stack' pc' heq
      cases heq
      refine ⟨?_, hinv.runnable hcpu rfl⟩
      cases caller <;> exact hrefs.congr rfl rfl rfl rfl (by simp [Caller.next, Pc.sleeps])
  | stackFailed x stack y caller hcpu =>
    refine joins_giveBack hinv h hcpu rfl (by rw [hcpu]; exact ⟨rfl, rfl⟩)
      (by cases caller <;> rfl) (by cases caller <;> exact ⟨rfl, rfl, rfl, rfl⟩) (fun p => ?_)
      (by cases caller <;> rfl)
    cases caller with
    | kthreadCreate => rfl
    | fork =>
      exact field_update (v := { s.proc y.1 with maker := none }) (f := s.proc) Proc.pid rfl p
  | kthreadCreate x stack y hcpu =>
    exact joins_start hinv h hcpu rfl (by rw [hcpu]; exact ⟨rfl, rfl⟩) rfl (fun _ => rfl) rfl rfl
      rfl rfl rfl
  | forkFailed x stack y hcpu =>
    exact joins_giveBack hinv h hcpu rfl (by rw [hcpu]; exact ⟨rfl, rfl⟩) rfl ⟨rfl, rfl, rfl, rfl⟩
      (field_update Proc.pid rfl) rfl
  | forkDone x stack y hcpu =>
    exact joins_start hinv h hcpu rfl (by rw [hcpu]; exact ⟨rfl, rfl⟩) rfl
      (field_update Proc.pid rfl) rfl rfl rfl rfl rfl
  | exit x stack hcpu hcmd hreleased hfree =>
    simp only [Calm, hcpu, hcmd] at hcalm
    exact joins_exit hinv h hcpu hcalm
  | exited x stack hcpu =>
    exact h.leave hinv hcpu ⟨rfl, rfl, rfl, rfl⟩ rfl rfl rfl rfl (by rw [hcpu]; exact ⟨rfl, rfl⟩)
      (Or.inl rfl) (fun _ => .plain rfl rfl) (by simp)
  | kthreadExit x stack hcpu hfree =>
    have hself : (kthreadExit s a.cpu x stack).thread x = { s.thread x with state := .zombie } :=
      update_self ..
    have hstay : ∀ {z}, z ≠ x → (kthreadExit s a.cpu x stack).thread z = s.thread z :=
      fun hz => update_of_ne hz ..
    refine h.store hinv ⟨fun z hz => ?_, fun z hz => Or.inl ?_, fun _ hmem => hmem,
      fun _ hmem => Or.inl hmem, fun _ hmem => List.mem_cons_of_mem _ hmem,
      fun _ hmem => Or.inl hmem, fun _ _ => rfl⟩ rfl rfl rfl rfl (by rw [hcpu]; exact ⟨rfl, rfl⟩)
      (fun _ => Or.inl (by simp)) (fun _ => Or.inr ⟨stack, rfl⟩)
      (fun z hz _ => (cpu_thread hcpu).symm.trans hz) ⟨fun hr => ?_, fun y id hr => ?_⟩ ?_
    · by_cases hzx : z = x
      · subst hzx
        exact Or.inr List.mem_cons_self
      · exact Or.inl (by rwa [State.state, hstay hzx])
    · by_cases hzx : z = x
      · subst hzx
        simp [State.state, hself] at hz
      · rwa [State.state, hstay hzx] at hz
    · simp [State.state, hself] at hr
    · simp [State.state, hself] at hr
    · intro z stack' pc' heq
      cases heq
      exact .plain rfl rfl
  | kthreadExitEnd x stack hcpu =>
    have hwakes := wakes_wakeup2 s x.1 (some (.thread x))
    have hapart : ∀ c' z stack' y id, s.cpu c' = .run z stack' (.joinSleep y id) → y ≠ x := by
      rintro c' z stack' y id hrun rfl
      exact hleave y (by rw [hcpu]; rfl) c' (by rw [hrun]; rfl)
    have hawake : ∀ z : Slot, z.1 = x.1 →
        ((wakeup2 s x.1 (some (.thread x))).thread z).chan = some (.thread x) →
        (wakeup2 s x.1 (some (.thread x))).state z ≠ .sleeping := by
      intro z hz hchan hsleeping
      simp only [wakeup2, State.state] at hchan hsleeping
      split at hsleeping <;> simp_all
    have hinv' := hinv.wake hwakes
    have hwoken := h.wake hwakes ⟨rfl, rfl, rfl, rfl⟩
    unfold kthreadExitEnd
    simp only
    split
    · unfold enterExit
      split
      · exact joins_exitEnd hinv' hwoken hcpu hapart hawake ⟨rfl, rfl, rfl, rfl⟩ rfl
          (fun _ _ => rfl) ⟨rfl, rfl⟩ rfl (Or.inr ⟨_, rfl, rfl, rfl⟩)
      · exact joins_exitEnd hinv' hwoken hcpu hapart hawake ⟨rfl, rfl, rfl, rfl⟩ rfl
          (fun _ _ => rfl) ⟨rfl, rfl⟩ rfl (Or.inr ⟨_, rfl, rfl, rfl⟩)
    · refine joins_exitEnd hinv' hwoken hcpu hapart hawake ⟨rfl, rfl, rfl, rfl⟩ rfl
        (fun z hz => update_of_ne hz ..) ⟨?_, ?_⟩ rfl (Or.inl ⟨rfl, ?_⟩)
      · simp [sched]
      · simp [sched, State.state]
      · simp [sched]
  | joinDone x stack y id hcpu hy =>
    have hrefs := h.locals.running _ x stack _ hcpu
    refine h.same hinv (fun _ => ⟨rfl, rfl, fun _ => rfl, rfl⟩) rfl rfl rfl (fun e hmem => ?_)
      (fun _ _ => rfl) rfl (by rw [cpu_thread hcpu]; rfl) (by rw [hcpu]; exact ⟨rfl, rfl⟩) ?_
    · rcases List.mem_cons.mp hmem with rfl | hold
      · refine Or.inr ⟨hrefs.asks y id rfl, ?_⟩
        exact h.terminated_of_dead (hrefs.asks y id rfl) (hrefs.finds y id rfl) fun hlive =>
          hlive.1.1 hy
      · exact Or.inl hold
    · intro z stack' pc' heq
      cases heq
      exact ⟨.plain rfl rfl, hinv.runnable hcpu rfl⟩
  | joinReap x stack y id looped hcpu =>
    have hguard := hreap y (by rw [hcpu]; rfl)
    have hrefs := h.locals.running _ x stack _ hcpu
    have hzombie := (hinv.refs _ x stack _ hcpu).reaps y rfl
    refine joins_reap hinv h hcpu rfl hguard rfl rfl rfl rfl rfl (fun e hmem => ?_) rfl rfl rfl
    rcases List.mem_cons.mp hmem with rfl | hold
    · refine Or.inr ⟨hrefs.asks y id rfl, ?_⟩
      exact h.terminated_of_dead (hrefs.asks y id rfl) (hrefs.finds y id rfl) fun hlive =>
        hlive.2 hzombie
    · exact Or.inl hold
  | execReap x stack y rest threadsAlive hcpu =>
    exact joins_reap hinv h hcpu rfl (hreap y (by rw [hcpu]; rfl)) rfl rfl rfl rfl rfl
      (fun _ hmem => Or.inl hmem) rfl rfl rfl
  | execWake x stack y rest hcpu =>
    simp only [Calm, hcpu, step_go hcpu (by simp) hstep] at hcalm
    have hwakes := wakes_setState hcalm
    refine (h.wake hwakes ⟨rfl, rfl, rfl, rfl⟩).same (hinv.wake hwakes)
      (fun _ => ⟨rfl, rfl, fun _ => rfl, rfl⟩) rfl rfl rfl (fun _ hmem => Or.inl hmem)
      (fun _ _ => rfl) rfl (cpu_thread (s := s.setState y .runnable) hcpu).symm ?_ ?_
    · show (s.cpu a.cpu).numbering = none ∧ (s.cpu a.cpu).leaving = none
      rw [hcpu]
      exact ⟨rfl, rfl⟩
    · intro z stack' pc' heq
      cases heq
      exact ⟨.plain rfl rfl, hinv.runnable hcpu rfl⟩

theorem joins_boot (n page : Nat) : Joins (boot n page) where
  nexttid := by simp
  fresh := fun y => by
    by_cases hy : y = (proc0, thread0) <;> simp [hy]
  unique := fun y z => by
    by_cases hy : y = (proc0, thread0) <;> by_cases hz : z = (proc0, thread0) <;>
      simp [hy, hz]
  created := fun id pid hmem => by
    simp only [boot, List.mem_singleton, Prod.mk.injEq] at hmem
    obtain ⟨rfl, rfl⟩ := hmem
    refine ⟨by decide, by simp, Or.inr ⟨(proc0, thread0), by simp, ?_⟩⟩
    simp [State.state]
  embryo := fun y pid hembryo => by
    by_cases hy : y = (proc0, thread0) <;> simp [State.state, hy] at hembryo
  joined := fun pid id hmem => by simp at hmem
  locals := by
    refine ⟨fun c x stack pc hcpu => (by simp at hcpu), fun x _ => ⟨fun hready => ?_, ?_⟩⟩
    · by_cases hx : x = (proc0, thread0)
      · simpa [hx] using .plain rfl rfl
      · simp [State.state, hx] at hready
    · intro y id hsleeping
      by_cases hx : x = (proc0, thread0) <;> simp [State.state, hx] at hsleeping

theorem Joins.sound (h : Joins s) (hinv : Inv s) : JoinSound s where
  returned := h.joined
  awake := fun z y id hfree _ hsleeping hresume => by
    have htable : ∀ c, (s.cpu c).table ≠ true := by
      intro c htable
      exact absurd ((hinv.table c).mpr htable) (by simp [hfree])
    have hnone : ∀ c, (s.cpu c).thread ≠ some z := by
      intro c hrun
      obtain ⟨stack, pc, hrun⟩ := exists_run hrun
      by_cases hsettled : pc.settled = true
      · have := hinv.running c z stack pc hrun hsettled
        simp [hsleeping] at this
      · exact htable c (by rw [hrun]; exact not_settled_table (by simpa using hsettled))
    have hold := h.locals.resting z hnone
    have hrefs := hold.refs (Or.inr hsleeping)
    rw [hresume] at hrefs
    refine ⟨hrefs.finds y id rfl, fun hzombie => ?_, (hrefs.joins y id rfl).1⟩
    obtain ⟨c, stack, hrun⟩ := (hold.sleeping y id hsleeping hresume).2 hzombie
    exact htable c (by rw [hrun]; rfl)

theorem kthread_join_sound {page : Nat} {labels : List (Act n)} {final : State n}
    (hmeets : Meets step JoinsApart (boot n page) labels)
    (hrun : run step (boot n page) labels = some final) : JoinSound final := by
  have hkeep : ∀ (s : State n) a next, Inv s ∧ Joins s → JoinsApart s a → step s a = some next →
      Inv next ∧ Joins next := by
    rintro s a next ⟨hinv, hjoins⟩ hguard hstep
    exact ⟨inv_step hinv hguard.1 hstep, joins_step hinv hjoins hguard hstep⟩
  obtain ⟨hinv, hjoins⟩ := run_invariant hkeep ⟨inv_boot n page, joins_boot n page⟩ hmeets hrun
  exact hjoins.sound hinv

/-- A thread sleeps in `kthread_join` until its sibling exits; the entry is used
again for a thread that has already exited when it is joined. -/
def joinedTwice : List (Act 1) :=
  twoThreads onlyCpu ++ on onlyCpu [.call (.kthreadJoin 3), .go, .go, .go, .go, .go, .go,
    .pick (proc1, thread1), .call .kthreadExit, .go, .go, .pick (proc1, thread0), .go, .go, .go,
    .ret, .call .kthreadCreate, .go, .go, .go, .go, .kalloc 5, .go, .ret, .tick, .go,
    .pick (proc1, thread1), .call .kthreadExit, .go, .go, .pick (proc1, thread0),
    .call (.kthreadJoin 4), .go, .go, .go, .ret]

theorem kthread_join_sound_joined_twice :
    ∃ final, run step (boot 1 1) joinedTwice = some final ∧ final.joined = [(2, 4), (2, 3)] ∧
      JoinSound final := by
  obtain ⟨final, hfinal, hjoined⟩ : ∃ final, run step (boot 1 1) joinedTwice = some final ∧
      final.joined = [(2, 4), (2, 3)] := by
    decide +kernel
  exact ⟨final, hfinal, hjoined, kthread_join_sound (by decide +kernel) hfinal⟩

/-- `kthread_join(0)` finds an entry that was never used. -/
def joinNobody : List (Act 1) :=
  twoThreads onlyCpu ++ on onlyCpu [.call (.kthreadJoin 0), .go, .go, .go]

def thread2 : Fin nthread := ⟨2, by decide⟩

/-- Two threads join a third one. It exits and wakes both; the first frees the
entry, and the second finds it not `ZOMBIE` and sleeps again. -/
def joinedByTwo : List (Act 1) :=
  twoThreads onlyCpu ++ on onlyCpu [.call .kthreadCreate, .go, .go, .go, .go, .go, .kalloc 4, .go,
    .ret, .call (.kthreadJoin 4), .go, .go, .go, .go, .go, .go, .pick (proc1, thread1),
    .call (.kthreadJoin 4), .go, .go, .go, .go, .go, .go, .pick (proc1, thread2),
    .call .kthreadExit, .go, .go, .pick (proc1, thread0), .go, .go, .go, .ret, .tick, .go,
    .pick (proc1, thread1), .go, .go, .go, .go, .go]

theorem joins_nobody_and_joiner_stranded :
    (∃ final, run step (boot 1 1) joinNobody = some final ∧ (2, 0) ∈ final.joined ∧
      (0, 2) ∉ final.created) ∧
    ∃ final, run step (boot 1 1) joinedByTwo = some final ∧ final.ptlock = none ∧
      final.lock proc1 = none ∧ final.state (proc1, thread1) = .sleeping ∧
      (final.thread (proc1, thread1)).context.resume = .slept (.rejoin (proc1, thread2) 4) ∧
      final.state (proc1, thread2) = .unused := by
  decide +kernel

end Xv6.Kernel
