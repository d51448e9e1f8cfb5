import Xv6.Kernel.Discipline

/-! What a step can do, said once. A step either moves its CPU to another
position and keeps everything else that later results are about, or it is one
of the stores listed in `Effect`. -/
namespace Xv6.Kernel
open Transition Lock
open Function (update update_self update_of_ne update_eq_self)

variable {n : Nat} {s s' : State n} {c : Fin n} {cmd : Cmd} {x y : Slot} {stack : Nat} {pc pc' : Pc}
  {p : Fin nproc} {v : Cpu}

attribute [local simp] State.setCpu State.setThread State.setState

/-- `wait` about to scan the table, or woken up inside its section. -/
def AtWait (s : State n) (pc : Pc) : Prop :=
  (pc = .code .wait ∧ s.ptlock = none) ∨ pc = .waitScan

theorem AtWait.plain (hpc : AtWait s pc) (x : Slot) :
    pc.settled = true ∧ pc.exits = false ∧ pc.lock x = none := by
  rcases hpc with ⟨rfl, -⟩ | rfl <;> exact ⟨rfl, rfl, rfl⟩

theorem Locked.wait_out (h : Locked s) (hcpu : s.cpu c = .run x stack pc) (hpc : AtWait s pc)
    (hv : v.table = false) :
    Agrees none (fun cpu => cpu.table = true) (update s.cpu c v) := by
  rcases hpc with ⟨rfl, hfree⟩ | rfl
  · rw [← hfree]
    exact h.table_keep (by rw [hcpu]; exact hv)
  · exact h.table_release (by rw [hcpu]; rfl) hv

theorem Locked.wait_in (h : Locked s) (hcpu : s.cpu c = .run x stack pc) (hpc : AtWait s pc)
    (hv : v.table = true) :
    Agrees (some c) (fun cpu => cpu.table = true) (update s.cpu c v) := by
  rcases hpc with ⟨rfl, hfree⟩ | rfl
  · exact h.table_acquire hfree hv
  · rw [← (h.table c).mpr (by rw [hcpu]; rfl)]
    exact h.table_keep (by rw [hcpu]; exact hv)

theorem zombieChild_some {p q : Fin nproc} (hq : zombieChild s p = some q) :
    s.pstate q = .zombie := by
  have hfound := List.find?_some hq
  simp only [decide_eq_true_eq] at hfound
  exact hfound.2

/-- All but the locks, the flags of processes and the positions of the CPUs. -/
structure Kept (s s' : State n) : Prop where
  thread : s'.thread = s.thread
  state : ∀ p, (s'.proc p).state = (s.proc p).state
  pid : ∀ p, (s'.proc p).pid = (s.proc p).pid
  maker : ∀ p, (s'.proc p).maker = (s.proc p).maker
  nextpid : s'.nextpid = s.nextpid
  nexttid : s'.nexttid = s.nexttid
  busy : s'.busy = s.busy
  outstanding : s'.outstanding = s.outstanding
  stackPages : s'.stackPages = s.stackPages
  created : s'.created = s.created
  terminated : s'.terminated = s.terminated
  joined : s'.joined = s.joined

inductive Moves (s : State n) (x : Slot) : Pc → Pc → Prop
  | stay (k : Code) : Moves s x (.code k) (.code k)
  | tick (k : Code) (h : s.state x = .running) : Moves s x (.code k) (.yielding k)
  | call (syscall : Syscall) (h : syscall ≠ .exit) :
    Moves s x (.code .user) (.code (syscall.entry x.1))
  | exit (k : Code) (hk : k = .user ∨ (k = .work .syscall ∧ s.released x)) :
    Moves s x (.code k) (.code (.work .exit))
  | initExit (k : Code) (hk : k = .user ∨ (k = .work .syscall ∧ s.released x)) :
    Moves s x (.code k) (.panic .initExiting)
  | ret (h : s.released x) : Moves s x (.code (.work .syscall)) (.code .user)
  | sleep (mode : Mode) (a : Nat) :
    Moves s x (.code (.work mode)) (.sleeping (.addr a) (.work mode))
  | allocproc : Moves s x (.code .allocproc) (.code (.work .syscall))
  | allocLock (p : Fin nproc) (caller : Caller) :
    Moves s x (.code (.allocthread p caller)) (.allocScan p (List.finRange nthread) caller)
  | allocSkip (p : Fin nproc) (i : Fin nthread) (rest : List (Fin nthread)) (caller : Caller) :
    Moves s x (.allocScan p (i :: rest) caller) (.allocScan p rest caller)
  | allocFull (p : Fin nproc) :
    Moves s x (.allocScan p [] .kthreadCreate) (.code (.work .syscall))
  | copied (y : Slot) : Moves s x (.code (.copyuvm y)) (.code (.copied y))
  | wait (pc : Pc) (hpc : AtWait s pc) : Moves s x pc (.code (.work .syscall))
  | waitPanic (pc : Pc) (hpc : AtWait s pc) (why : Panic)
    (hwhy : why = .waitKfree ∨ why = .waitAlive)
    (halive : why = .waitAlive → ∃ y : Slot, s.pstate y.1 = .zombie ∧ ¬ ProcState.dead (s.state y))
    : Moves s x pc (.panic why)
  | joinNone (id : Int) : Moves s x (.code (.kthreadJoin id)) (.code (.work .syscall))
  | join (y : Slot) (id : Int) (hy : y.1 = x.1) (hid : (s.thread y).tid = id) :
    Moves s x (.code (.kthreadJoin id)) (.joinFound y id)
  | joinZombie (y : Slot) (id : Int) (hy : s.state y = .zombie) :
    Moves s x (.joinFound y id) (.joinReap y id false)
  | joinUsed (y : Slot) (id : Int) : Moves s x (.joinFound y id) (.joinUsed y id)
  | joinWait (y : Slot) (id : Int) (hy : s.state y ≠ .unused) :
    Moves s x (.joinUsed y id) (.joinLoop y id)
  | loopZombie (y : Slot) (id : Int) (hy : s.state y = .zombie) :
    Moves s x (.joinLoop y id) (.joinReap y id true)
  | loopSleep (y : Slot) (id : Int) (hy : s.state y ≠ .zombie) :
    Moves s x (.joinLoop y id) (.joinSleep y id)
  | joinSleep (y : Slot) (id : Int) :
    Moves s x (.joinSleep y id) (.sleeping (.thread y) (.rejoin y id))
  | rejoin (y : Slot) (id : Int) : Moves s x (.code (.rejoin y id)) (.joinLoop y id)
  | joinPanic (y : Slot) (id : Int) (looped : Bool) (why : Panic)
    (hwhy : why = .joinUnused ∨ why = .joinKfree) :
    Moves s x (.joinReap y id looped) (.panic why)
  | exec : Moves s x (.code .waitBeforeExec) (.execScan (List.finRange nthread) false)
  | rescan : Moves s x (.code .rescan) (.execScan (List.finRange nthread) true)
  | execNext (rest rest' : List (Fin nthread)) (threadsAlive threadsAlive' : Bool) :
    Moves s x (.execScan rest threadsAlive) (.execScan rest' threadsAlive')
  | execZombie (i : Fin nthread) (rest : List (Fin nthread)) (threadsAlive : Bool)
    (hi : s.state (x.1, i) = .zombie) :
    Moves s x (.execScan (i :: rest) threadsAlive) (.execReap (x.1, i) rest threadsAlive)
  | execSleeping (i : Fin nthread) (rest : List (Fin nthread)) (threadsAlive : Bool) :
    Moves s x (.execScan (i :: rest) threadsAlive) (.execWake (x.1, i) rest)
  | execWait : Moves s x (.execScan [] true) .execSleep
  | execDone : Moves s x (.execScan [] false) (.code (.work .syscall))
  | execSleep : Moves s x .execSleep (.sleeping (.proc x.1) .rescan)
  | execPanic (y : Slot) (rest : List (Fin nthread)) (threadsAlive : Bool) :
    Moves s x (.execReap y rest threadsAlive) (.panic .execKfree)

inductive Effect (s : State n) (c : Fin n) (cmd : Cmd) : State n → Prop
  | moves (x : Slot) (stack : Nat) (pc pc' : Pc) (s' : State n)
    (hcpu : s.cpu c = .run x stack pc) (hkept : Kept s s')
    (hcpu' : s'.cpu = update s.cpu c (.run x stack pc')) (hmoves : Moves s x pc pc')
    (hlocked : Locked s → Locked s') : Effect s c cmd s'
  | acquire (hcpu : s.cpu c = .idle) (hfree : s.ptlock = none) :
    Effect s c cmd ((s.setTable (some c)).setCpu c .scheduling)
  | release (hcpu : s.cpu c = .scheduling) : Effect s c cmd ((s.setTable none).setCpu c .idle)
  | switchTo (x : Slot) (hcpu : s.cpu c = .scheduling) (hx : s.state x = .runnable) :
    Effect s c cmd (switchTo s c x)
  | wakeup (a : Nat) : Effect s c cmd (wakeup1 s (some (.addr a)))
  | take (x : Slot) (stack : Nat) (mode : Mode) (h : Hold)
    (hcpu : s.cpu c = .run x stack (.code (.work mode))) :
    Effect s c cmd { s with busy := (h, x) :: s.busy }
  | drop (x : Slot) (h : Hold) : Effect s c cmd { s with busy := s.busy.erase (h, x) }
  | beginOp (x : Slot) (stack : Nat) (mode : Mode)
    (hcpu : s.cpu c = .run x stack (.code (.work mode))) :
    Effect s c cmd { s with outstanding := x :: s.outstanding }
  | endOp (x : Slot) : Effect s c cmd { s with outstanding := s.outstanding.erase x }
  | yield (x : Slot) (stack : Nat) (k : Code) (hcpu : s.cpu c = .run x stack (.yielding k))
    (hfree : s.ptlock = none) :
    Effect s c cmd (sched ((s.setState x .runnable).setTable (some c)) c x stack (.yielded k))
  | sleep (x : Slot) (stack : Nat) (chan : Chan) (k : Code)
    (hcpu : s.cpu c = .run x stack (.sleeping chan k)) : Effect s c cmd (sleep s c x stack chan k)
  | waitSleep (x : Slot) (stack : Nat) (pc : Pc) (hcpu : s.cpu c = .run x stack pc)
    (hpc : AtWait s pc) : Effect s c cmd (waitSleep s c x stack)
  | waitReap (x : Slot) (stack : Nat) (pc : Pc) (q : Fin nproc) (hcpu : s.cpu c = .run x stack pc)
    (hpc : AtWait s pc) (hq : zombieChild s x.1 = some q) (hgood : waitStops s q = none) :
    Effect s c cmd (waitReap s c x stack q)
  | allocproc (x : Slot) (stack : Nat) (p : Fin nproc)
    (hcpu : s.cpu c = .run x stack (.code .allocproc)) (hp : s.pstate p = .unused) :
    Effect s c cmd (allocprocAt s c x stack p)
  | allocAbandoned (x : Slot) (stack : Nat) (p : Fin nproc)
    (hcpu : s.cpu c = .run x stack (.allocScan p [] .fork)) :
    Effect s c cmd (allocFailed (s.setLock p none) c x stack p .fork)
  | allocFound (x : Slot) (stack : Nat) (p : Fin nproc) (i : Fin nthread)
    (rest : List (Fin nthread)) (caller : Caller)
    (hcpu : s.cpu c = .run x stack (.allocScan p (i :: rest) caller))
    (hi : s.state (p, i) = .unused) : Effect s c cmd (allocFound s c x stack (p, i) caller)
  | allocTid (x : Slot) (stack : Nat) (y : Slot) (tid : Int) (caller : Caller)
    (hcpu : s.cpu c = .run x stack (.allocTid y tid caller)) :
    Effect s c cmd (allocTid s c x stack y tid caller)
  | stackReady (x : Slot) (stack : Nat) (y : Slot) (caller : Caller) (page : Nat)
    (hcpu : s.cpu c = .run x stack (.code (.kalloc y caller))) (hpage : page ≠ 0)
    (hfree : s.stackPages page = none) : Effect s c cmd (stackReady s c x stack y caller page)
  | stackFailed (x : Slot) (stack : Nat) (y : Slot) (caller : Caller)
    (hcpu : s.cpu c = .run x stack (.code (.kalloc y caller))) :
    Effect s c cmd (stackFailed s c x stack y caller)
  | kthreadCreate (x : Slot) (stack : Nat) (y : Slot)
    (hcpu : s.cpu c = .run x stack (.code (.created y))) :
    Effect s c cmd (kthreadCreate s c x stack y)
  | forkFailed (x : Slot) (stack : Nat) (y : Slot)
    (hcpu : s.cpu c = .run x stack (.code (.copyuvm y))) : Effect s c cmd (forkFailed s c x stack y)
  | forkDone (x : Slot) (stack : Nat) (y : Slot)
    (hcpu : s.cpu c = .run x stack (.code (.copied y))) : Effect s c cmd (forkDone s c x stack y)
  | exit (x : Slot) (stack : Nat) (hcpu : s.cpu c = .run x stack (.code (.work .exit)))
    (hcmd : cmd = .exit) (hreleased : s.released x) (hfree : s.ptlock = none) :
    Effect s c cmd (exit s c x stack)
  | exited (x : Slot) (stack : Nat) (hcpu : s.cpu c = .run x stack .exited) :
    Effect s c cmd (sched s c x stack .zombie)
  | kthreadExit (x : Slot) (stack : Nat) (hcpu : s.cpu c = .run x stack (.code .kthreadExit))
    (hfree : s.ptlock = none) : Effect s c cmd (kthreadExit s c x stack)
  | kthreadExitEnd (x : Slot) (stack : Nat) (hcpu : s.cpu c = .run x stack .kthreadExiting) :
    Effect s c cmd (kthreadExitEnd s c x stack)
  | joinDone (x : Slot) (stack : Nat) (y : Slot) (id : Int)
    (hcpu : s.cpu c = .run x stack (.joinUsed y id)) (hy : s.state y = .unused) :
    Effect s c cmd (joinDone s c x stack id)
  | joinReap (x : Slot) (stack : Nat) (y : Slot) (id : Int) (looped : Bool)
    (hcpu : s.cpu c = .run x stack (.joinReap y id looped)) :
    Effect s c cmd (joinDone (reap s y) c x stack id)
  | execReap (x : Slot) (stack : Nat) (y : Slot) (rest : List (Fin nthread)) (threadsAlive : Bool)
    (hcpu : s.cpu c = .run x stack (.execReap y rest threadsAlive)) :
    Effect s c cmd ((reap s y).setCpu c (.run x stack (.execScan rest threadsAlive)))
  | execWake (x : Slot) (stack : Nat) (y : Slot) (rest : List (Fin nthread))
    (hcpu : s.cpu c = .run x stack (.execWake y rest)) :
    Effect s c cmd ((s.setState y .runnable).setCpu c (.run x stack (.execScan rest true)))

theorem Kept.rfl : Kept s s :=
  ⟨Eq.refl _, fun _ => Eq.refl _, fun _ => Eq.refl _, fun _ => Eq.refl _, Eq.refl _, Eq.refl _,
    Eq.refl _, Eq.refl _, Eq.refl _, Eq.refl _, Eq.refl _, Eq.refl _⟩

theorem Kept.locks {ptlock : Option (Fin n)} {lock : Fin nproc → Option (Fin n)}
    {cpu : Fin n → Cpu} (h : Kept s s') :
    Kept s { s' with ptlock := ptlock, lock := lock, cpu := cpu } :=
  ⟨h.thread, h.state, h.pid, h.maker, h.nextpid, h.nexttid, h.busy, h.outstanding, h.stackPages,
    h.created, h.terminated, h.joined⟩

theorem Kept.of_proc {q : Proc} (hproc : s'.proc = update s.proc p q)
    (hstate : q.state = (s.proc p).state) (hpid : q.pid = (s.proc p).pid)
    (hmaker : q.maker = (s.proc p).maker) (h : Kept s { s' with proc := s.proc }) : Kept s s' := by
  refine ⟨h.thread, fun p' => ?_, fun p' => ?_, fun p' => ?_, h.nextpid, h.nexttid, h.busy,
    h.outstanding, h.stackPages, h.created, h.terminated, h.joined⟩
  · rw [hproc]
    exact field_update Proc.state hstate p'
  · rw [hproc]
    exact field_update Proc.pid hpid p'
  · rw [hproc]
    exact field_update Proc.maker hmaker p'

namespace Effect

variable (hcpu : s.cpu c = .run x stack pc)
include hcpu

theorem keep (hkept : Kept s s') (hcpu' : s'.cpu = update s.cpu c (.run x stack pc'))
    (hptlock : s'.ptlock = s.ptlock) (hlock : s'.lock = s.lock) (htable : pc'.table = pc.table)
    (hheld : pc'.lock x = pc.lock x) (hmoves : Moves s x pc pc') : Effect s c cmd s' :=
  .moves x stack pc pc' s' hcpu hkept hcpu' hmoves
    fun h => h.keep hcpu hcpu' hptlock hlock htable hheld

theorem goto (htable : pc'.table = pc.table) (hheld : pc'.lock x = pc.lock x)
    (hmoves : Moves s x pc pc') : Effect s c cmd (s.setCpu c (.run x stack pc')) :=
  keep hcpu Kept.rfl.locks rfl rfl rfl htable hheld hmoves

theorem lock (hkept : Kept s s') (hcpu' : s'.cpu = update s.cpu c (.run x stack pc'))
    (hptlock : s'.ptlock = s.ptlock) (hlock : s'.lock = update s.lock p (some c))
    (hfree : s.lock p = none) (hpc : pc.lock x = none) (hpc' : pc'.lock x = some p)
    (htable : pc'.table = pc.table) (hmoves : Moves s x pc pc') : Effect s c cmd s' := by
  refine .moves x stack pc pc' s' hcpu hkept hcpu' hmoves fun h => ⟨?_, ?_⟩
  · rw [hptlock, hcpu']
    exact h.table_keep (by rw [hcpu]; exact htable)
  · rw [hlock, hcpu']
    exact h.locks_acquire hfree (by rw [hcpu]; exact hpc) hpc'

theorem unlock (hkept : Kept s s') (hcpu' : s'.cpu = update s.cpu c (.run x stack pc'))
    (hptlock : s'.ptlock = s.ptlock) (hlock : s'.lock = update s.lock p none)
    (hpc : pc.lock x = some p) (hpc' : pc'.lock x = none) (htable : pc'.table = pc.table)
    (hmoves : Moves s x pc pc') : Effect s c cmd s' := by
  refine .moves x stack pc pc' s' hcpu hkept hcpu' hmoves fun h => ⟨?_, ?_⟩
  · rw [hptlock, hcpu']
    exact h.table_keep (by rw [hcpu]; exact htable)
  · rw [hlock, hcpu']
    exact h.locks_release (by rw [hcpu]; exact hpc) hpc'

theorem sleepLocked {chan : Chan} {k : Code} (hpc : pc.lock x = some x.1)
    (hmoves : Moves s x pc (.sleeping chan k))
    (hstep : sleepLocked s c x stack chan k = some s') : Effect s c cmd s' := by
  obtain ⟨hfree, rfl⟩ := taken hstep
  exact .moves x stack pc _ _ hcpu Kept.rfl.locks rfl hmoves fun h =>
    ⟨h.table_acquire hfree rfl, h.locks_release (by rw [hcpu]; exact hpc) rfl⟩

end Effect

theorem Effect.stay {k : Code} (hcpu : s.cpu c = .run x stack (.code k)) (hkept : Kept s s')
    (hcpu' : s'.cpu = s.cpu) (hptlock : s'.ptlock = s.ptlock) (hlock : s'.lock = s.lock) :
    Effect s c cmd s' :=
  .keep hcpu hkept (by rw [hcpu', ← hcpu, update_eq_self]) hptlock hlock rfl rfl (.stay k)

theorem effect_enterExit {k : Code} (hcpu : s.cpu c = .run x stack (.code k))
    (hk : k = .user ∨ (k = .work .syscall ∧ s.released x)) :
    Effect s c cmd (enterExit s c x stack) := by
  unfold enterExit
  split
  · exact .goto hcpu rfl rfl (.initExit k hk)
  · exact .goto hcpu rfl rfl (.exit k hk)

theorem effect_call {syscall : Syscall} (hcpu : s.cpu c = .run x stack (.code .user)) :
    Effect s c cmd (call s c x stack syscall) := by
  unfold call
  split
  · exact effect_enterExit hcpu (Or.inl rfl)
  · cases syscall <;> first
      | exact effect_enterExit hcpu (Or.inl rfl)
      | exact .goto hcpu rfl rfl (.call _ (by simp))

theorem effect_workStep {mode : Mode}
    (hcpu : s.cpu c = .run x stack (.code (.work mode)))
    (hstep : workStep s c x stack mode cmd = some s') : Effect s c cmd s' := by
  cases cmd <;> simp only [workStep, reduceCtorEq] at hstep
  case take h =>
    obtain ⟨-, rfl⟩ := taken hstep
    exact .take x stack mode h hcpu
  case drop h =>
    obtain ⟨-, rfl⟩ := taken hstep
    exact .drop x h
  case beginOp =>
    cases hstep
    exact .beginOp x stack mode hcpu
  case endOp =>
    obtain ⟨-, rfl⟩ := taken hstep
    exact .endOp x
  case sleep a =>
    obtain ⟨hfree, rfl⟩ := taken hstep
    exact .moves x stack _ _ _ hcpu Kept.rfl.locks rfl (.sleep mode a) fun h =>
      ⟨h.table_acquire hfree rfl, h.locks_keep (by rw [hcpu]; rfl)⟩
  case kill pid =>
    obtain ⟨-, rfl⟩ := taken hstep
    unfold kill
    split
    · exact .stay hcpu Kept.rfl rfl rfl rfl
    · exact .stay hcpu (.of_proc rfl rfl rfl rfl Kept.rfl) rfl rfl rfl
  case ret =>
    obtain ⟨⟨rfl, hreleased⟩, rfl⟩ := taken hstep
    unfold trapExit
    split
    · exact effect_enterExit hcpu (Or.inr ⟨rfl, hreleased⟩)
    · exact .goto hcpu rfl rfl (.ret hreleased)
  case exit =>
    obtain ⟨⟨rfl, hreleased, hfree⟩, rfl⟩ := taken hstep
    exact .exit x stack hcpu rfl hreleased hfree

theorem effect_waitPanic {q : Fin nproc} (hcpu : s.cpu c = .run x stack pc) (hpc : AtWait s pc)
    (hq : zombieChild s x.1 = some q) (hstops : waitStops s q = some y) :
    Effect s c cmd ((s.setTable (some c)).setCpu c (.run x stack
      (.panic (if (s.thread y).state = .zombie then .waitKfree else .waitAlive)))) := by
  obtain ⟨i, -, rfl⟩ := List.mem_map.mp (List.mem_of_find?_eq_some hstops)
  have hheld := (hpc.plain x).2.2.symm
  by_cases hzombie : (s.thread (q, i)).state = .zombie
  · rw [if_pos hzombie]
    exact .moves x stack _ _ _ hcpu Kept.rfl.locks rfl
      (.waitPanic pc hpc _ (Or.inl rfl) (fun hwhy => by cases hwhy))
      fun h => ⟨h.wait_in hcpu hpc rfl, h.locks_keep (by rw [hcpu]; exact hheld)⟩
  · have hlive : ¬ ProcState.dead (s.state (q, i)) := by
      have hbad := List.find?_some hstops
      simpa [hzombie, State.state] using hbad
    rw [if_neg hzombie]
    exact .moves x stack _ _ _ hcpu Kept.rfl.locks rfl
      (.waitPanic pc hpc _ (Or.inr rfl) (fun _ => ⟨(q, i), zombieChild_some hq, hlive⟩))
      fun h => ⟨h.wait_in hcpu hpc rfl, h.locks_keep (by rw [hcpu]; exact hheld)⟩

theorem effect_waitScan (hcpu : s.cpu c = .run x stack pc) (hpc : AtWait s pc) :
    Effect s c cmd (waitScan s c x stack) := by
  unfold waitScan
  split
  · rename_i q hq
    split
    · rename_i y hstops
      exact effect_waitPanic hcpu hpc hq hstops
    · rename_i hgood
      exact .waitReap x stack pc q hcpu hpc hq hgood
  · split
    · exact .moves x stack _ _ _ hcpu Kept.rfl.locks rfl (.wait pc hpc) fun h =>
        ⟨h.wait_out hcpu hpc rfl, h.locks_keep (by rw [hcpu]; exact (hpc.plain x).2.2.symm)⟩
    · exact .waitSleep x stack pc hcpu hpc

theorem effect_kthreadJoin {id : Int} (hcpu : s.cpu c = .run x stack (.code (.kthreadJoin id)))
    (hfree : s.lock x.1 = none) :
    Effect s c cmd (kthreadJoin s c x stack id) := by
  unfold kthreadJoin
  split
  · exact .goto hcpu rfl rfl (.joinNone id)
  · rename_i y hfind
    obtain ⟨i, -, rfl⟩ := List.mem_map.mp (List.mem_of_find?_eq_some hfind)
    have hid : (s.thread (x.1, i)).tid = id := by simpa using List.find?_some hfind
    exact .lock hcpu Kept.rfl.locks rfl rfl rfl hfree rfl rfl rfl (.join (x.1, i) id rfl hid)

theorem effect_codeStep {k : Code} (hcpu : s.cpu c = .run x stack (.code k))
    (hstep : codeStep s c x stack k cmd = some s') : Effect s c cmd s' := by
  cases k with
  | work mode => exact effect_workStep hcpu hstep
  | user =>
    cases cmd <;> simp only [codeStep, reduceCtorEq] at hstep <;> cases hstep
    · exact effect_call hcpu
    · unfold trapExit
      split
      · exact effect_enterExit hcpu (Or.inl rfl)
      · exact .goto hcpu rfl rfl (.stay .user)
    · exact .stay hcpu (.of_proc rfl rfl rfl rfl Kept.rfl) rfl rfl rfl
  | allocproc =>
    cases cmd <;> simp only [codeStep, reduceCtorEq] at hstep
    obtain ⟨-, rfl⟩ := taken hstep
    unfold allocproc
    split
    · exact .goto hcpu rfl rfl .allocproc
    · rename_i p hfind
      exact .allocproc x stack p hcpu (by simpa [State.pstate] using List.find?_some hfind)
  | allocthread p caller =>
    cases cmd <;> simp only [codeStep, reduceCtorEq] at hstep
    obtain ⟨hfree, rfl⟩ := taken hstep
    exact .lock hcpu Kept.rfl.locks rfl rfl rfl hfree rfl rfl rfl (.allocLock p caller)
  | kalloc y caller =>
    cases cmd <;> simp only [codeStep, reduceCtorEq] at hstep
    obtain ⟨hfree, rfl⟩ := taken hstep
    unfold allocStack
    split
    · exact .stackFailed x stack y caller hcpu
    · rename_i page hpage
      exact .stackReady x stack y caller _ hcpu hpage hfree
  | created y =>
    cases cmd <;> simp only [codeStep, reduceCtorEq] at hstep
    obtain ⟨-, rfl⟩ := taken hstep
    exact .kthreadCreate x stack y hcpu
  | copyuvm y =>
    cases cmd <;> simp only [codeStep, reduceCtorEq] at hstep
    split at hstep <;> cases hstep
    · exact .keep hcpu (.of_proc rfl rfl rfl rfl Kept.rfl.locks) rfl rfl rfl rfl rfl (.copied y)
    · exact .forkFailed x stack y hcpu
  | copied y =>
    cases cmd <;> simp only [codeStep, reduceCtorEq] at hstep
    obtain ⟨-, rfl⟩ := taken hstep
    exact .forkDone x stack y hcpu
  | wait =>
    cases cmd <;> simp only [codeStep, reduceCtorEq] at hstep
    obtain ⟨hfree, rfl⟩ := taken hstep
    exact effect_waitScan hcpu (Or.inl ⟨rfl, hfree⟩)
  | kthreadExit =>
    cases cmd <;> simp only [codeStep, reduceCtorEq] at hstep
    obtain ⟨hfree, rfl⟩ := taken hstep
    exact .kthreadExit x stack hcpu hfree
  | kthreadJoin id =>
    cases cmd <;> simp only [codeStep, reduceCtorEq] at hstep
    obtain ⟨hfree, rfl⟩ := taken hstep
    exact effect_kthreadJoin hcpu hfree
  | rejoin y id =>
    cases cmd <;> simp only [codeStep, reduceCtorEq] at hstep
    obtain ⟨hfree, rfl⟩ := taken hstep
    exact .lock hcpu Kept.rfl.locks rfl rfl rfl hfree rfl rfl rfl (.rejoin y id)
  | waitBeforeExec =>
    cases cmd <;> simp only [codeStep, reduceCtorEq] at hstep
    obtain ⟨hfree, rfl⟩ := taken hstep
    exact .lock hcpu (.of_proc rfl rfl rfl rfl Kept.rfl.locks) rfl rfl rfl hfree rfl rfl rfl .exec
  | rescan =>
    cases cmd <;> simp only [codeStep, reduceCtorEq] at hstep
    obtain ⟨hfree, rfl⟩ := taken hstep
    exact .lock hcpu Kept.rfl.locks rfl rfl rfl hfree rfl rfl rfl .rescan

theorem effect_allocScan {rest : List (Fin nthread)} {caller : Caller}
    (hcpu : s.cpu c = .run x stack (.allocScan p rest caller)) :
    Effect s c cmd (allocScan s c x stack p caller rest) := by
  cases rest with
  | nil =>
    cases caller
    · exact .unlock hcpu Kept.rfl.locks rfl rfl rfl rfl rfl rfl (.allocFull p)
    · exact .allocAbandoned x stack p hcpu
  | cons i rest =>
    simp only [allocScan]
    split
    · rename_i hunused
      exact .allocFound x stack p i rest caller hcpu hunused
    · exact .goto hcpu rfl rfl (.allocSkip p i rest caller)

theorem effect_execScan {rest : List (Fin nthread)} {threadsAlive : Bool}
    (hcpu : s.cpu c = .run x stack (.execScan rest threadsAlive)) :
    Effect s c cmd (execScan s c x stack threadsAlive rest) := by
  cases rest with
  | nil =>
    cases threadsAlive
    · exact .unlock hcpu (.of_proc rfl rfl rfl rfl Kept.rfl.locks) rfl rfl rfl rfl rfl rfl .execDone
    · exact .goto hcpu rfl rfl .execWait
  | cons i rest =>
    simp only [execScan]
    split
    · exact .goto hcpu rfl rfl (.execNext _ _ _ _)
    · split
      · rename_i hzombie
        exact .goto hcpu rfl rfl (.execZombie i rest _ hzombie)
      · exact .goto hcpu rfl rfl (.execSleeping i rest _)
      · exact .goto hcpu rfl rfl (.execNext _ _ _ _)

theorem effect_lockedStep (hcpu : s.cpu c = .run x stack pc)
    (hstep : lockedStep s c x stack pc = some s') : Effect s c cmd s' := by
  cases pc with
  | code k | panic why => cases hstep
  | yielding k =>
    obtain ⟨hfree, rfl⟩ := taken hstep
    exact .yield x stack k hcpu hfree
  | allocScan p rest caller =>
    cases hstep
    exact effect_allocScan hcpu
  | allocTid y tid caller =>
    cases hstep
    exact .allocTid x stack y tid caller hcpu
  | sleeping chan k =>
    cases hstep
    exact .sleep x stack chan k hcpu
  | waitScan =>
    cases hstep
    exact effect_waitScan hcpu (Or.inr rfl)
  | exited =>
    cases hstep
    exact .exited x stack hcpu
  | kthreadExiting =>
    cases hstep
    exact .kthreadExitEnd x stack hcpu
  | joinFound y id =>
    cases hstep
    by_cases hzombie : (s.thread y).state = .zombie
    · rw [if_pos hzombie]
      exact .goto hcpu rfl rfl (.joinZombie y id hzombie)
    · rw [if_neg hzombie]
      exact .goto hcpu rfl rfl (.joinUsed y id)
  | joinUsed y id =>
    simp only [lockedStep] at hstep
    split at hstep <;> cases hstep
    · rename_i hunused
      exact .joinDone x stack y id hcpu hunused
    · rename_i hused
      exact .goto hcpu rfl rfl (.joinWait y id hused)
  | joinLoop y id =>
    cases hstep
    by_cases hzombie : (s.thread y).state = .zombie
    · rw [if_pos hzombie]
      exact .goto hcpu rfl rfl (.loopZombie y id hzombie)
    · rw [if_neg hzombie]
      exact .goto hcpu rfl rfl (.loopSleep y id hzombie)
  | joinSleep y id =>
    exact .sleepLocked hcpu rfl (.joinSleep y id) hstep
  | joinReap y id looped =>
    cases hstep
    unfold joinReap
    split
    · exact .goto hcpu rfl rfl (.joinPanic y id looped _ (Or.inl rfl))
    split
    · exact .goto hcpu rfl rfl (.joinPanic y id looped _ (Or.inr rfl))
    · exact .joinReap x stack y id looped hcpu
  | execScan rest threadsAlive =>
    cases hstep
    exact effect_execScan hcpu
  | execReap y rest threadsAlive =>
    cases hstep
    unfold execReap
    split
    · exact .goto hcpu rfl rfl (.execPanic y rest threadsAlive)
    · exact .execReap x stack y rest threadsAlive hcpu
  | execWake y rest =>
    cases hstep
    exact .execWake x stack y rest hcpu
  | execSleep =>
    exact .sleepLocked hcpu rfl .execSleep hstep

theorem effect_step {a : Act n} (hstep : step s a = some s') : Effect s a.cpu a.cmd s' := by
  obtain ⟨c, cmd⟩ := a
  cases hcpu : s.cpu c with
  | idle =>
    cases cmd <;> simp only [step, hcpu, reduceCtorEq] at hstep
    · obtain ⟨hfree, rfl⟩ := taken hstep
      exact .acquire hcpu hfree
    · obtain ⟨-, rfl⟩ := taken hstep
      exact .wakeup _
  | scheduling =>
    cases cmd <;> simp only [step, hcpu, reduceCtorEq] at hstep
    · cases hstep
      exact .release hcpu
    · obtain ⟨hrunnable, rfl⟩ := taken hstep
      exact .switchTo _ hcpu hrunnable
  | run x stack pc =>
    cases pc with
    | code k =>
      cases cmd <;> simp only [step, hcpu] at hstep
      case tick =>
        obtain ⟨hrunning, rfl⟩ := taken hstep
        exact .goto hcpu rfl rfl (.tick k hrunning)
      case wakeup =>
        obtain ⟨-, rfl⟩ := taken hstep
        exact .wakeup _
      all_goals exact effect_codeStep hcpu hstep
    | _ =>
      cases cmd <;> simp only [step, hcpu, reduceCtorEq] at hstep
      exact effect_lockedStep hcpu hstep

theorem step_go {a : Act n} (hcpu : s.cpu a.cpu = .run x stack pc) (hpc : ∀ k, pc ≠ .code k)
    (hstep : step s a = some s') : a.cmd = .go := by
  obtain ⟨c, cmd⟩ := a
  cases pc with
  | code k => exact absurd rfl (hpc k)
  | _ => cases cmd <;> simp_all [step]

theorem Moves.settled (h : Moves s x pc pc') :
    pc.settled = true ∧ pc'.settled = true := by
  cases h <;> simp_all [Pc.settled]
  case wait hwait => rcases hwait with ⟨rfl, -⟩ | rfl <;> simp
  case waitPanic hwait => rcases hwait with ⟨rfl, -⟩ | rfl <;> simp

structure Wakes (s s' : State n) : Prop where
  thread : ∀ y, s'.thread y = s.thread y ∨
    (s.state y = .sleeping ∧ s'.thread y = { s.thread y with state := .runnable })
  proc : s'.proc = s.proc
  cpu : s'.cpu = s.cpu
  ptlock : s'.ptlock = s.ptlock
  lock : s'.lock = s.lock

theorem Wakes.of_eq (hthread : s'.thread = s.thread) (hproc : s'.proc = s.proc)
    (hcpu : s'.cpu = s.cpu) (hptlock : s'.ptlock = s.ptlock) (hlock : s'.lock = s.lock) :
    Wakes s s' :=
  ⟨fun y => Or.inl (by rw [hthread]), hproc, hcpu, hptlock, hlock⟩

theorem wakes_wakeup1 (s : State n) (chan : Option Chan) : Wakes s (wakeup1 s chan) where
  thread := fun y => by
    by_cases hy : (s.thread y).state = .sleeping ∧ (s.thread y).chan = chan
    · exact Or.inr ⟨hy.1, by simp [wakeup1, hy]⟩
    · exact Or.inl (by simp [wakeup1, hy])
  proc := rfl
  cpu := rfl
  ptlock := rfl
  lock := rfl

theorem wakes_wakeup2 (s : State n) (p : Fin nproc) (chan : Option Chan) :
    Wakes s (wakeup2 s p chan) where
  thread := fun y => by
    by_cases hy : y.1 = p ∧ (s.thread y).state = .sleeping ∧ (s.thread y).chan = chan
    · exact Or.inr ⟨hy.2.1, by simp [wakeup2, hy]⟩
    · exact Or.inl (by simp [wakeup2, hy])
  proc := rfl
  cpu := rfl
  ptlock := rfl
  lock := rfl

theorem wakes_setState (hy : s.state y = .sleeping) : Wakes s (s.setState y .runnable) where
  thread := fun z => by
    by_cases hz : z = y
    · subst hz
      exact Or.inr ⟨hy, by simp⟩
    · exact Or.inl (by simp [update_of_ne hz])
  proc := rfl
  cpu := rfl
  ptlock := rfl
  lock := rfl

theorem Wakes.trans {s'' : State n} (hs : Wakes s s') (hs' : Wakes s' s'') : Wakes s s'' where
  thread := fun y => by
    rcases hs.thread y with heq | ⟨hsleeping, heq⟩
    · rw [← heq]
      have hstate : s'.state y = s.state y := by rw [State.state, heq, State.state]
      rw [← hstate]
      exact hs'.thread y
    · rcases hs'.thread y with heq' | ⟨hsleeping', -⟩
      · exact Or.inr ⟨hsleeping, heq'.trans heq⟩
      · simp [State.state, heq] at hsleeping'
  proc := hs'.proc.trans hs.proc
  cpu := hs'.cpu.trans hs.cpu
  ptlock := hs'.ptlock.trans hs.ptlock
  lock := hs'.lock.trans hs.lock

/-! The result of `exit`, with its one or two wake-ups. -/

theorem exit_kept (s : State n) (c : Fin n) (x : Slot) (stack : Nat) :
    (exit s c x stack).busy = s.busy ∧ (exit s c x stack).outstanding = s.outstanding ∧
      (exit s c x stack).stackPages = s.stackPages ∧ (exit s c x stack).created = s.created ∧
      (exit s c x stack).joined = s.joined ∧ (exit s c x stack).nexttid = s.nexttid := by
  simp only [exit, State.setCpu]
  split <;> exact ⟨rfl, rfl, rfl, rfl, rfl, rfl⟩

theorem exit_nextpid (s : State n) (c : Fin n) (x : Slot) (stack : Nat) :
    (exit s c x stack).nextpid = s.nextpid := by
  simp only [exit, State.setCpu]
  split <;> rfl

theorem exit_cpu (s : State n) (c : Fin n) (x : Slot) (stack : Nat) :
    (exit s c x stack).cpu = update s.cpu c (.run x stack .exited) := by
  simp only [exit, State.setCpu]
  split <;> rfl

theorem exit_proc (s : State n) (c : Fin n) (x : Slot) (stack : Nat) (p : Fin nproc) :
    ((exit s c x stack).proc p).maker = (s.proc p).maker ∧
      ((exit s c x stack).proc p).pid = (s.proc p).pid ∧
      (exit s c x stack).pstate p = if p = x.1 then .zombie else s.pstate p := by
  simp only [exit, State.setCpu, State.pstate]
  by_cases hp : p = x.1
  · subst hp
    simp [update_self]
  · rw [update_of_ne hp, if_neg hp]
    split <;> exact ⟨rfl, rfl, rfl⟩

theorem exit_told (s : State n) (c : Fin n) (x : Slot) (stack : Nat) :
    ∃ told, Wakes s told ∧ (exit s c x stack).thread = fun y =>
      if y.1 = x.1 ∧ (told.thread y).state ≠ .unused then
        { told.thread y with state := .zombie, chan := none }
      else told.thread y := by
  have hwoken := wakes_wakeup1 s ((s.proc x.1).parent.map .proc)
  simp only [exit, State.setCpu]
  split
  · exact ⟨_, hwoken.trans (wakes_wakeup1 _ _), rfl⟩
  · exact ⟨_, hwoken, rfl⟩

theorem exit_own {y : Slot} (hy : y.1 = x.1) :
    (exit s c x stack).thread y = if s.state y = .unused then s.thread y
      else { s.thread y with state := .zombie, chan := none } := by
  obtain ⟨told, hw, hthread⟩ := exit_told s c x stack
  rw [hthread]
  rcases hw.thread y with heq | ⟨hsleeping, heq⟩
  · by_cases hunused : s.state y = .unused
    · simp_all [State.state]
    · simp_all [State.state]
  · simp_all [State.state]

theorem exit_others (s : State n) (c : Fin n) (x : Slot) (stack : Nat) :
    Wakes s { s with
      thread := fun y => if y.1 = x.1 then s.thread y else (exit s c x stack).thread y } := by
  obtain ⟨told, hw, hthread⟩ := exit_told s c x stack
  refine ⟨fun y => ?_, rfl, rfl, rfl, rfl⟩
  by_cases hy : y.1 = x.1
  · simp [hy]
  · simpa [hy, hthread] using hw.thread y

/-- Facts about the thread on each CPU and about each thread on no CPU. -/
structure Locals (on : State n → Slot → Nat → Pc → Prop) (off : State n → Slot → Prop)
    (s : State n) : Prop where
  running : ∀ c x stack pc, s.cpu c = .run x stack pc → on s x stack pc
  resting : ∀ x, (∀ c, (s.cpu c).thread ≠ some x) → off s x

theorem Locals.step {on : State n → Slot → Nat → Pc → Prop} {off : State n → Slot → Prop} {v : Cpu}
    (h : Locals on off s) (hcpu' : s'.cpu = update s.cpu c v)
    (hothers : ∀ c' x stack pc, c' ≠ c → s.cpu c' = .run x stack pc → on s x stack pc →
      on s' x stack pc)
    (hoff : ∀ x, (∀ c', (s.cpu c').thread ≠ some x) → (∀ c', (s'.cpu c').thread ≠ some x) →
      off s x → off s' x)
    (hleft : ∀ x, (s.cpu c).thread = some x → v.thread ≠ some x → off s' x)
    (hv : ∀ x stack pc, v = .run x stack pc → on s' x stack pc) : Locals on off s' where
  running := fun c' x stack pc hrun => by
    rw [hcpu'] at hrun
    by_cases hc' : c' = c
    · subst hc'
      rw [update_self] at hrun
      exact hv x stack pc hrun
    · rw [update_of_ne hc'] at hrun
      exact hothers c' x stack pc hc' hrun (h.running c' x stack pc hrun)
  resting := fun x hnone => by
    have hself : v.thread ≠ some x := by
      have := hnone c
      rwa [hcpu', update_self] at this
    by_cases hx : (s.cpu c).thread = some x
    · exact hleft x hx hself
    · have hnone' : ∀ c', (s.cpu c').thread ≠ some x := by
        intro c'
        by_cases hc' : c' = c
        · rwa [hc']
        · have := hnone c'
          rwa [hcpu', update_of_ne hc'] at this
      exact hoff x hnone' hnone (h.resting x hnone')

end Xv6.Kernel
