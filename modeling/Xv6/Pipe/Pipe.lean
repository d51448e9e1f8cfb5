import Mathlib.Data.List.FinRange
import Xv6.Basic
import Xv6.Lib.Lock
import Xv6.Lib.Ring
import Xv6.Lib.Transition

/-! Pipes: `pipewrite`, `piperead` and `pipeclose` of any number of threads on
one pipe, step by step with `p->lock`, `ptable.lock`, `sleep` and `wakeup`, and
that the bytes pass through the pipe in order. -/
namespace Xv6.Pipes
open Function Transition

abbrev pipesize : Nat := 512

abbrev uintRange : Nat := 4294967296

theorem pipesize_pos : 0 < pipesize := Nat.succ_pos 511

/-- `struct pipe` without its lock. `accepted` and `delivered` are not kernel
data: all bytes stored by `pipewrite` and all bytes copied out by `piperead`. -/
structure Pipe where
  data : Fin pipesize → UInt8
  nread : Nat
  nwrite : Nat
  readopen : Bool
  writeopen : Bool
  accepted : List UInt8
  delivered : List UInt8

inductive Chan where
  | nread
  | nwrite
deriving DecidableEq

inductive Call where
  | write (n : Int)
  | read (n : Int)
  | close (writable : Bool)
deriving DecidableEq

/-- The two loops around a `sleep`: the one of `pipewrite` with `i` bytes stored,
and the first one of `piperead`. -/
inductive Loop where
  | write (n : Int) (i : Nat)
  | read (n : Int)
deriving DecidableEq

def Loop.chan : Loop → Chan
  | .write _ _ => .nwrite
  | .read _ => .nread

inductive Next where
  | sleep (n : Int) (i : Nat)
  | ret (value : Int)
  | close
deriving DecidableEq

/-- Where one of the threads `Fin m` is. -/
inductive Pc (m : Nat) where
  /-- In no call; the value of the last one. -/
  | user (ret : Option Int)
  /-- Before the first `acquire(&p->lock)`. -/
  | acquire (call : Call)
  /-- At the test of a loop. -/
  | loop (loop : Loop)
  /-- In `pipewrite`, before the store of a byte. -/
  | store (n : Int) (i : Nat)
  /-- In the second loop of `piperead`, at the test. -/
  | copy (n : Int) (i : Nat)
  /-- In the second loop of `piperead`, before the byte is taken. -/
  | take (n : Int) (i : Nat)
  /-- In `pipeclose`, before the store to `writeopen` or `readopen`. -/
  | closing (writable : Bool)
  | wakeup (chan : Chan) (next : Next)
  | wakeup1 (chan : Chan) (rest : List (Fin m)) (next : Next)
  /-- In `sleep`, before `acquire(&ptable.lock)`. -/
  | sleep (loop : Loop)
  /-- In `sleep`, before `release(lk)`. -/
  | sleepRelease (loop : Loop)
  /-- In `sleep`, before the stores to `chan` and `state`. -/
  | sleepMark (loop : Loop)
  | sched (loop : Loop)
  /-- Not on a CPU. -/
  | switched (loop : Loop)
  /-- In `sleep`, back from `sched`. -/
  | woken (loop : Loop)
  /-- In `sleep`, before `acquire(lk)`. -/
  | reacquire (loop : Loop)
  /-- Before the last `release(&p->lock)` of `pipewrite` and `piperead`. -/
  | release (value : Int)
  /-- In `pipeclose`, after the wakeup. -/
  | closed
  | kfree
deriving DecidableEq

/-- `freed`: the page of the pipe has been given to `kfree`. -/
structure State (m : Nat) (P : Type) where
  pipe : Pipe
  freed : Bool
  lock : Option (Fin m)
  ptable : Option (Fin m)
  state : Fin m → ProcState
  chan : Fin m → Option Chan
  pc : Fin m → Pc m
  killed : P → Bool

variable {m : Nat} {P : Type}

def boot (data : Fin pipesize → UInt8) : State m P where
  pipe := {
    data := data
    nread := 0
    nwrite := 0
    readopen := true
    writeopen := true
    accepted := []
    delivered := [] }
  freed := false
  lock := none
  ptable := none
  state := fun _ => .running
  chan := fun _ => none
  pc := fun _ => .user none
  killed := fun _ => false

def State.goto (s : State m P) (t : Fin m) (pc : Pc m) : State m P :=
  { s with pc := update s.pc t pc }

def State.setState (s : State m P) (t : Fin m) (state : ProcState) : State m P :=
  { s with state := update s.state t state }

def Pipe.full (p : Pipe) : Prop := p.nwrite = (p.nread + pipesize) % uintRange

instance (p : Pipe) : Decidable p.full := Nat.decEq _ _

def Pipe.store (p : Pipe) (byte : UInt8) : Pipe :=
  { p with
    data := update p.data (Ring.cell pipesize_pos p.nwrite) byte
    nwrite := (p.nwrite + 1) % uintRange
    accepted := p.accepted ++ [byte] }

def Pipe.take (p : Pipe) : Pipe :=
  { p with
    nread := (p.nread + 1) % uintRange
    delivered := p.delivered ++ [p.data (Ring.cell pipesize_pos p.nread)] }

def Pipe.close (p : Pipe) : Bool → Pipe
  | true => { p with writeopen := false }
  | false => { p with readopen := false }

def wakeTurn (s : State m P) (u : Fin m) (chan : Chan) : State m P :=
  if s.state u = .sleeping ∧ s.chan u = some chan then s.setState u .runnable else s

/-- The position after `acquire(&p->lock)`. -/
def Call.enter : Call → Pc m
  | .write n => .loop (.write n 0)
  | .read n => .loop (.read n)
  | .close writable => .closing writable

def Next.pc : Next → Pc m
  | .sleep n i => .sleep (.write n i)
  | .ret value => .release value
  | .close => .closed

/-- The next step of a thread of a process that is `killed` or not. `byte` is
the byte of the user's buffer that a store of `pipewrite` copies. -/
def threadStep (s : State m P) (t : Fin m) (killed : Bool) (byte : UInt8) :
    Pc m → Option (State m P)
  | .user _ => none
  | .acquire call =>
    if s.lock = none then some ({ s with lock := some t }.goto t call.enter) else none
  | .loop (.write n i) =>
    if i < n then
      if s.pipe.full then
        if s.pipe.readopen = false ∨ killed then
          some ({ s with lock := none }.goto t (.user (some (-1))))
        else some (s.goto t (.wakeup .nread (.sleep n i)))
      else some (s.goto t (.store n i))
    else some (s.goto t (.wakeup .nread (.ret n)))
  | .store n i =>
    some ({ s with pipe := s.pipe.store byte }.goto t (.loop (.write n (i + 1))))
  | .loop (.read n) =>
    if s.pipe.nread = s.pipe.nwrite ∧ s.pipe.writeopen then
      if killed then some ({ s with lock := none }.goto t (.user (some (-1))))
      else some (s.goto t (.sleep (.read n)))
    else some (s.goto t (.copy n 0))
  | .copy n i =>
    if i < n ∧ s.pipe.nread ≠ s.pipe.nwrite then some (s.goto t (.take n i))
    else some (s.goto t (.wakeup .nwrite (.ret i)))
  | .take n i => some ({ s with pipe := s.pipe.take }.goto t (.copy n (i + 1)))
  | .closing writable =>
    some ({ s with pipe := s.pipe.close writable }.goto t
      (.wakeup (if writable then .nread else .nwrite) .close))
  | .wakeup chan next =>
    if s.ptable = none then
      some ({ s with ptable := some t }.goto t (.wakeup1 chan (List.finRange m) next))
    else none
  | .wakeup1 chan (u :: rest) next => some ((wakeTurn s u chan).goto t (.wakeup1 chan rest next))
  | .wakeup1 _ [] next => some ({ s with ptable := none }.goto t next.pc)
  | .sleep loop =>
    if s.ptable = none then some ({ s with ptable := some t }.goto t (.sleepRelease loop)) else none
  | .sleepRelease loop => some ({ s with lock := none }.goto t (.sleepMark loop))
  | .sleepMark loop =>
    some ({ s.setState t .sleeping with
      chan := update s.chan t (some loop.chan) }.goto t (.sched loop))
  | .sched loop =>
    -- the scheduler goes on with ptable.lock and leaves it in the end
    some ({ s with ptable := none }.goto t (.switched loop))
  | .switched loop =>
    if s.ptable = none ∧ s.state t = .runnable then
      some ({ s.setState t .running with ptable := some t }.goto t (.woken loop))
    else none
  | .woken loop =>
    some ({ s with ptable := none, chan := update s.chan t none }.goto t (.reacquire loop))
  | .reacquire loop =>
    if s.lock = none then some ({ s with lock := some t }.goto t (.loop loop)) else none
  | .release value => some ({ s with lock := none }.goto t (.user (some value)))
  | .closed =>
    some ({ s with lock := none }.goto t
      (if s.pipe.readopen = false ∧ s.pipe.writeopen = false then .kfree else .user none))
  | .kfree => some ({ s with freed := true }.goto t (.user none))

inductive Act (m : Nat) (P : Type) where
  | call (t : Fin m) (call : Call)
  | go (t : Fin m) (byte : UInt8)
  | kill (p : P)

/-- `proc` gives the process of each thread. After `kfree` there is no pipe. -/
def step [DecidableEq P] (proc : Fin m → P) (s : State m P) : Act m P → Option (State m P)
  | .call t call =>
    if s.freed then none
    else
      match s.pc t with
      | .user _ => some (s.goto t (.acquire call))
      | _ => none
  | .go t byte =>
    if s.freed then none else threadStep s t (s.killed (proc t)) byte (s.pc t)
  | .kill p =>
    if s.ptable = none then some { s with killed := update s.killed p true } else none

variable {p : Pipe} {byte : UInt8}

def Pipe.count (p : Pipe) : Nat := p.accepted.length - p.delivered.length

def Pipe.Stream (p : Pipe) : Prop :=
  ∃ queue, p.accepted = p.delivered ++ queue ∧
    Ring.Holds pipesize_pos uintRange p.data p.nread p.nwrite queue

theorem pipesize_dvd : pipesize ∣ uintRange := by decide

theorem Pipe.Stream.full_iff (h : p.Stream) : p.full ↔ p.count = pipesize := by
  obtain ⟨queue, hbytes, hholds⟩ := h
  rw [Pipe.full, hholds.distance (by decide) le_rfl, Pipe.count, hbytes, List.length_append]
  omega

theorem Pipe.Stream.empty_iff (h : p.Stream) : p.nread = p.nwrite ↔ p.count = 0 := by
  obtain ⟨queue, hbytes, hholds⟩ := h
  rw [hholds.empty_iff (by decide), Pipe.count, hbytes, List.length_append,
    ← List.length_eq_zero_iff]
  omega

theorem Pipe.Stream.store (h : p.Stream) (hroom : ¬ p.full) : (p.store byte).Stream := by
  obtain ⟨queue, hbytes, hholds⟩ := h
  have hlen : queue.length ≠ pipesize := fun hlen =>
    hroom ((hholds.distance (by decide) le_rfl).mpr hlen)
  refine ⟨queue ++ [byte], ?_, hholds.push pipesize_dvd (lt_of_le_of_ne hholds.fits hlen)⟩
  simp only [Pipe.store, hbytes, List.append_assoc]

theorem Pipe.Stream.take (h : p.Stream) (hne : p.nread ≠ p.nwrite) : p.take.Stream := by
  obtain ⟨queue, hbytes, hholds⟩ := h
  cases queue with
  | nil => exact absurd ((hholds.empty_iff (by decide)).mpr rfl) hne
  | cons first rest =>
    obtain ⟨hfirst, hrest⟩ := hholds.pop pipesize_dvd
    refine ⟨rest, ?_, hrest⟩
    simp only [Pipe.take, hfirst, hbytes, List.append_assoc, List.singleton_append]

theorem Pipe.Stream.close (h : p.Stream) (writable : Bool) : (p.close writable).Stream := by
  cases writable <;> exact h

variable {s s' : State m P} {t : Fin m} {pc : Pc m}

def Pc.holds : Pc m → Prop
  | .loop _ | .store _ _ | .copy _ _ | .take _ _ | .closing _ => True
  | .wakeup _ _ | .wakeup1 _ _ _ | .sleep _ | .sleepRelease _ | .release _ | .closed => True
  | _ => False

def Pc.ptable : Pc m → Prop
  | .wakeup1 _ _ _ | .sleepRelease _ | .sleepMark _ | .sched _ | .woken _ => True
  | _ => False

attribute [local simp] Pc.ptable Pc.holds

/-- The condition under which a thread sleeps on a channel. -/
def Pipe.blocked (p : Pipe) : Chan → Prop
  | .nread => p.nread = p.nwrite ∧ p.writeopen = true
  | .nwrite => p.full ∧ p.readopen = true

/-- What the holder of `p->lock` has found out by its tests. -/
def Pc.knows (p : Pipe) : Pc m → Prop
  | .store n i => i < n ∧ ¬ p.full
  | .take _ _ => p.nread ≠ p.nwrite
  | .sleep waiting | .sleepRelease waiting => p.blocked waiting.chan
  | .wakeup _ (.sleep _ _) | .wakeup1 _ _ (.sleep _ _) => p.blocked .nwrite
  | _ => True

theorem Pc.knows_of_not_holds (hpc : ¬ pc.holds) : pc.knows p := by
  cases pc with
  | store n i | take n i | sleep loop | sleepRelease loop | wakeup chan next
  | wakeup1 chan rest next => exact absurd trivial hpc
  | _ => trivial

structure Inv (s : State m P) : Prop where
  lock : Lock.Agrees s.lock Pc.holds s.pc
  ptable : Lock.Agrees s.ptable Pc.ptable s.pc
  knows : ∀ t, (s.pc t).knows s.pipe
  stream : s.pipe.Stream

theorem inv_boot (data : Fin pipesize → UInt8) : Inv (boot data : State m P) where
  lock := fun _ => by simp [boot]
  ptable := fun _ => by simp [boot]
  knows := fun _ => trivial
  stream := ⟨[], rfl, Ring.holds_nil (Nat.succ_pos 4294967295)⟩

section

variable (h : Inv s) (hpc : s'.pc = update s.pc t pc)
  (hlock : Lock.Agrees s'.lock Pc.holds (update s.pc t pc))
  (hptable : Lock.Agrees s'.ptable Pc.ptable (update s.pc t pc))
include h hpc hlock hptable

theorem Inv.move (hpipe : s'.pipe = s.pipe ∨ (s.pc t).holds) (hknows : pc.knows s'.pipe)
    (hstream : s'.pipe.Stream) : Inv s' where
  lock := by rwa [hpc]
  ptable := by rwa [hpc]
  knows := by
    intro u
    rw [hpc]
    by_cases hut : u = t
    · rwa [hut, update_self]
    · rw [update_of_ne hut]
      rcases hpipe with hsame | hholds
      · rw [hsame]
        exact h.knows u
      · exact Pc.knows_of_not_holds fun hu => hut (h.lock.same hu hholds)
  stream := hstream

theorem Inv.walk (hpipe : s'.pipe = s.pipe) (hknows : pc.knows s.pipe) : Inv s' :=
  h.move hpc hlock hptable (.inl hpipe) (by rwa [hpipe]) (by rw [hpipe]; exact h.stream)

end

theorem Inv.goto {old : Pc m} (h : Inv s) (hpc : s.pc t = old) (hlock : pc.holds ↔ old.holds)
    (hptable : pc.ptable ↔ old.ptable) (hknows : pc.knows s.pipe) : Inv (s.goto t pc) :=
  h.walk rfl (h.lock.keep hpc hlock) (h.ptable.keep hpc hptable) rfl hknows

theorem wakeTurn_same (s : State m P) (u : Fin m) (chan : Chan) :
    (wakeTurn s u chan).pipe = s.pipe ∧ (wakeTurn s u chan).lock = s.lock ∧
      (wakeTurn s u chan).ptable = s.ptable ∧ (wakeTurn s u chan).pc = s.pc := by
  unfold wakeTurn
  split <;> exact ⟨rfl, rfl, rfl, rfl⟩

theorem inv_threadStep (h : Inv s) {killed : Bool}
    (hstep : threadStep s t killed byte (s.pc t) = some s') : Inv s' := by
  have hlock := h.lock
  have hptable := h.ptable
  have hknows := h.knows t
  generalize hpc : s.pc t = pc at hstep hknows
  cases pc with
  | user ret => cases hstep
  | acquire call =>
    obtain ⟨hfree, rfl⟩ := taken hstep
    refine h.walk rfl (hlock.acquire hfree ?_) (hptable.keep hpc ?_) rfl ?_
    · cases call <;> trivial
    · cases call <;> exact .rfl
    · cases call <;> trivial
  | loop loop =>
    cases loop with
    | write n i =>
      simp only [threadStep] at hstep
      split at hstep
      · rename_i hlt
        split at hstep
        · rename_i hfull
          split at hstep
          · cases hstep
            exact h.walk rfl (hlock.release hpc trivial (by simp)) (hptable.keep hpc .rfl) rfl
              trivial
          · rename_i hopen
            cases hstep
            refine h.goto hpc .rfl .rfl ?_
            exact ⟨hfull, by simpa using fun hclosed => hopen (.inl hclosed)⟩
        · rename_i hroom
          cases hstep
          exact h.goto hpc .rfl .rfl ⟨hlt, hroom⟩
      · cases hstep
        exact h.goto hpc .rfl .rfl trivial
    | read n =>
      simp only [threadStep] at hstep
      split at hstep
      · rename_i hempty
        split at hstep
        · cases hstep
          exact h.walk rfl (hlock.release hpc trivial (by simp)) (hptable.keep hpc .rfl) rfl trivial
        · cases hstep
          exact h.goto hpc .rfl .rfl hempty
      · cases hstep
        exact h.goto hpc .rfl .rfl trivial
  | store n i =>
    cases hstep
    exact h.move rfl (hlock.keep hpc .rfl) (hptable.keep hpc .rfl) (.inr (by rw [hpc]; trivial))
      trivial (h.stream.store hknows.2)
  | copy n i =>
    simp only [threadStep] at hstep
    split at hstep
    · rename_i hmore
      cases hstep
      exact h.goto hpc .rfl .rfl hmore.2
    · cases hstep
      exact h.goto hpc .rfl .rfl trivial
  | take n i =>
    cases hstep
    exact h.move rfl (hlock.keep hpc .rfl) (hptable.keep hpc .rfl) (.inr (by rw [hpc]; trivial))
      trivial (h.stream.take hknows)
  | closing writable =>
    cases hstep
    exact h.move rfl (hlock.keep hpc .rfl) (hptable.keep hpc .rfl) (.inr (by rw [hpc]; trivial))
      trivial (h.stream.close writable)
  | wakeup chan next =>
    obtain ⟨hfree, rfl⟩ := taken hstep
    refine h.walk rfl (hlock.keep hpc .rfl) (hptable.acquire hfree trivial) rfl ?_
    cases next <;> exact hknows
  | wakeup1 chan rest next =>
    cases rest with
    | cons u rest =>
      cases hstep
      obtain ⟨hpipe, hlock', hptable', hpcs⟩ := wakeTurn_same s u chan
      refine h.walk (by rw [State.goto, hpcs]) ?_ ?_ hpipe (by cases next <;> exact hknows)
      · rw [State.goto, hlock']
        exact hlock.keep hpc .rfl
      · rw [State.goto, hptable']
        exact hptable.keep hpc .rfl
    | nil =>
      cases hstep
      refine h.walk rfl (hlock.keep hpc ?_) (hptable.release hpc trivial ?_) rfl ?_
      · cases next <;> exact .rfl
      · cases next <;> simp [Next.pc]
      · cases next with
        | sleep n i => exact hknows
        | _ => trivial
  | sleep loop =>
    obtain ⟨hfree, rfl⟩ := taken hstep
    exact h.walk rfl (hlock.keep hpc .rfl) (hptable.acquire hfree trivial) rfl hknows
  | sleepRelease loop =>
    cases hstep
    exact h.walk rfl (hlock.release hpc trivial (by simp)) (hptable.keep hpc .rfl) rfl trivial
  | sleepMark loop =>
    cases hstep
    exact h.walk rfl (hlock.keep hpc .rfl) (hptable.keep hpc .rfl) rfl trivial
  | sched loop =>
    cases hstep
    exact h.walk rfl (hlock.keep hpc .rfl) (hptable.release hpc trivial (by simp)) rfl trivial
  | switched loop =>
    obtain ⟨hfree, rfl⟩ := taken hstep
    exact h.walk rfl (hlock.keep hpc .rfl) (hptable.acquire hfree.1 trivial) rfl
      trivial
  | woken loop =>
    cases hstep
    exact h.walk rfl (hlock.keep hpc .rfl) (hptable.release hpc trivial (by simp)) rfl trivial
  | reacquire loop =>
    obtain ⟨hfree, rfl⟩ := taken hstep
    exact h.walk rfl (hlock.acquire hfree trivial) (hptable.keep hpc .rfl) rfl
      trivial
  | release value =>
    cases hstep
    exact h.walk rfl (hlock.release hpc trivial (by simp)) (hptable.keep hpc .rfl) rfl trivial
  | closed =>
    cases hstep
    refine h.walk rfl (hlock.release hpc trivial ?_) (hptable.keep hpc ?_) rfl ?_
    · split <;> simp
    · split <;> exact .rfl
    · split <;> trivial
  | kfree =>
    cases hstep
    exact h.walk rfl (hlock.keep hpc .rfl) (hptable.keep hpc .rfl) rfl trivial

theorem inv_step [DecidableEq P] {proc : Fin m → P} {a : Act m P} (h : Inv s)
    (hstep : step proc s a = some s') : Inv s' := by
  cases a with
  | call t call =>
    simp only [step] at hstep
    split at hstep
    · cases hstep
    · split at hstep
      · rename_i hpc
        cases hstep
        exact h.goto hpc .rfl .rfl trivial
      · cases hstep
  | go t byte =>
    simp only [step] at hstep
    split at hstep
    · cases hstep
    · exact inv_threadStep h hstep
  | kill p =>
    obtain ⟨-, rfl⟩ := taken hstep
    exact ⟨h.lock, h.ptable, h.knows, h.stream⟩

/-- A pipe is a stream of bytes: in every run, however often the counters wrap
around, what `piperead` has delivered is the first part of what `pipewrite` has
accepted, and at most `PIPESIZE` bytes are missing. -/
theorem pipe_delivers_in_order [DecidableEq P] (proc : Fin m → P) (data : Fin pipesize → UInt8)
    (labels : List (Act m P)) (final : State m P)
    (hrun : run (step proc) (boot data) labels = some final) :
    final.pipe.delivered <+: final.pipe.accepted ∧
      final.pipe.accepted.length ≤ final.pipe.delivered.length + pipesize := by
  have hkeep : ∀ (s : State m P) a next, Inv s → True → step proc s a = some next → Inv next :=
    fun _ _ _ h _ hstep => inv_step h hstep
  have hinv : Inv final :=
    run_invariant hkeep (inv_boot data) (meets_of_forall (fun _ _ _ => trivial) _) hrun
  obtain ⟨queue, hbytes, hholds⟩ := hinv.stream
  refine ⟨⟨queue, hbytes.symm⟩, ?_⟩
  rw [hbytes, List.length_append]
  have hfits := hholds.fits
  omega

def writer : Fin 2 := ⟨0, Nat.zero_lt_two⟩
def reader : Fin 2 := ⟨1, Nat.one_lt_two⟩

def calls (t : Fin m) (call : Call) (bytes : List UInt8) : List (Act m P) :=
  .call t call :: bytes.map (.go t)

def twoBytes : List (Act 2 (Fin 2)) :=
  calls writer (.write 2) [0, 0, 7, 0, 9, 0, 0, 0, 0, 0, 0] ++
    calls reader (.read 1) [0, 0, 0, 0]

theorem pipe_delivers_in_order_two_bytes :
    ∃ final, run (step id) (boot fun _ => 0) twoBytes = some final ∧
      final.pipe.accepted = [7, 9] ∧ final.pipe.delivered = [7] ∧
      final.pipe.delivered <+: final.pipe.accepted ∧
      final.pipe.accepted.length ≤ final.pipe.delivered.length + pipesize := by
  obtain ⟨final, hrun, haccepted, hdelivered⟩ : ∃ final, run (step id) (boot fun _ => 0) twoBytes =
      some final ∧ final.pipe.accepted = [7, 9] ∧ final.pipe.delivered = [7] := by
    decide +kernel
  exact ⟨final, hrun, haccepted, hdelivered, pipe_delivers_in_order id _ _ final hrun⟩

end Xv6.Pipes
