import Xv6.Pipe.Pipe

/-! Sleepers of a pipe. Every exit of the two loops wakes the other side, except
the failing one of `pipewrite`, which may come after bytes have been stored. -/
namespace Xv6.Pipes
open Function Transition

variable {m : Nat} {P : Type} {s s' : State m P} {t u : Fin m} {pc old : Pc m} {c : Chan}

/-- The size of the `pipewrite` call that the next step of the thread ends with -1. -/
def State.fails (s : State m P) (t : Fin m) (killed : Bool) : Option Int :=
  match s.pc t with
  | .loop (.write n i) =>
    if i < n ∧ s.pipe.full ∧ (s.pipe.readopen = false ∨ killed) then some n else none
  | _ => none

/-- No `pipewrite` of more than `PIPESIZE` bytes fails. -/
def smallFailure (proc : Fin m → P) (s : State m P) : Act m P → Bool
  | .go t _ => (s.fails t (s.killed (proc t))).all fun n => decide (n ≤ (pipesize : Int))
  | _ => true

def State.sleepsOn (s : State m P) (t : Fin m) (c : Chan) : Prop :=
  s.state t = .sleeping ∧ s.chan t = some c

/-- The thread has let go of `p->lock` to sleep, or sleeps. -/
def State.waits (s : State m P) (t : Fin m) (c : Chan) : Prop :=
  (∃ loop, s.pc t = .sleepMark loop ∧ loop.chan = c) ∨ s.sleepsOn t c

/-- A wakeup of the channel is still to come to `t`. A writer that found the pipe
empty has stored all the bytes in it. -/
def Pc.owes (c : Chan) (p : Pipe) (t : Fin m) : Pc m → Prop
  | .loop (.write _ i) | .store _ i => c = .nread ∧ p.count ≤ i
  | .copy _ _ | .take _ _ => c = .nwrite
  | .wakeup chan _ => chan = c
  | .wakeup1 chan rest _ => chan = c ∧ t ∈ rest
  | _ => False

attribute [local simp] State.sleepsOn Pc.owes State.goto State.setState

theorem Pc.holds_of_owes {p : Pipe} (h : pc.owes c p t) : pc.holds := by
  cases pc with
  | loop loop | store n i | copy n i | take n i | wakeup chan next | wakeup1 chan rest next =>
    trivial
  | _ => exact h.elim

def Owed (s : State m P) : Prop :=
  ∀ t c, s.waits t c → s.pipe.blocked c ∨ ∃ u, (s.pc u).owes c s.pipe t

/-- One thread moves: what it owed to a waiter it still owes, and a waiter that
is no longer blocked is owed a wakeup by it. -/
theorem Owed.move (h : Owed s) (hinv : Inv s) (hold : s.pc t = old)
    (hpc : s'.pc = update s.pc t pc)
    (hpipe : s'.pipe = s.pipe ∨ old.holds)
    (hblocked : ∀ u c, s'.waits u c → s.pipe.blocked c →
      s'.pipe.blocked c ∨ pc.owes c s'.pipe u)
    (howes : ∀ u c, s'.waits u c → old.owes c s.pipe u →
      s'.pipe.blocked c ∨ pc.owes c s'.pipe u)
    (hwaits : ∀ u c, s'.waits u c → s.waits u c ∨ s'.pipe.blocked c) : Owed s' := by
  subst hold
  intro u c hu
  have hself : pc.owes c s'.pipe u → ∃ v, (s'.pc v).owes c s'.pipe u := fun hpc' =>
    ⟨t, by rwa [hpc, update_self]⟩
  rcases hwaits u c hu with hold | hblocked'
  · rcases h u c hold with hblocked' | ⟨v, hv⟩
    · exact (hblocked u c hu hblocked').imp_right hself
    · by_cases hvt : v = t
      · subst hvt
        exact (howes u c hu hv).imp_right hself
      · rcases hpipe with hsame | hholds
        · exact .inr ⟨v, by rwa [hpc, update_of_ne hvt, hsame]⟩
        · exact absurd (hinv.lock.same (Pc.holds_of_owes hv) hholds) hvt
  · exact .inl hblocked'

theorem Owed.walk (h : Owed s) (hinv : Inv s) (hold : s.pc t = old)
    (hpc : s'.pc = update s.pc t pc)
    (hpipe : s'.pipe = s.pipe)
    (howes : ∀ u c, s'.waits u c → old.owes c s.pipe u →
      s.pipe.blocked c ∨ pc.owes c s.pipe u)
    (hwaits : ∀ u c, s'.waits u c → s.waits u c ∨ s.pipe.blocked c) : Owed s' := by
  refine h.move hinv hold hpc (.inl hpipe) ?_ ?_ ?_
  · intro u c _ hblocked
    rw [hpipe]
    exact .inl hblocked
  · rwa [hpipe]
  · rwa [hpipe]

theorem waits_of_update (hpc : s'.pc = update s.pc t pc)
    (hmark : ∀ loop, pc ≠ .sleepMark loop) (hsleeps : ∀ u c, s'.sleepsOn u c → s.sleepsOn u c)
    (u : Fin m) (c : Chan) (h : s'.waits u c) : s.waits u c := by
  rcases h with ⟨loop, hloop, hchan⟩ | hsleep
  · rw [hpc] at hloop
    by_cases hut : u = t
    · rw [hut, update_self] at hloop
      exact absurd hloop (hmark loop)
    · rw [update_of_ne hut] at hloop
      exact .inl ⟨loop, hloop, hchan⟩
  · exact .inr (hsleeps u c hsleep)

theorem Owed.change (h : Owed s) (hinv : Inv s) (hold : s.pc t = old)
    (hpc : s'.pc = update s.pc t pc)
    (hpipe : s'.pipe = s.pipe ∨ old.holds) (hmark : ∀ loop, pc ≠ .sleepMark loop)
    (hsleeps : ∀ u c, s'.sleepsOn u c → s.sleepsOn u c)
    (hblocked : ∀ u c, s.pipe.blocked c → s'.pipe.blocked c ∨ pc.owes c s'.pipe u)
    (howes : ∀ u c, old.owes c s.pipe u → s'.pipe.blocked c ∨ pc.owes c s'.pipe u) :
    Owed s' :=
  h.move hinv hold hpc hpipe (fun u c _ => hblocked u c) (fun u c _ => howes u c) fun u c hu =>
    .inl (waits_of_update hpc hmark hsleeps u c hu)

theorem Owed.plain (h : Owed s) (hinv : Inv s) (hold : s.pc t = old)
    (hpc : s'.pc = update s.pc t pc)
    (hpipe : s'.pipe = s.pipe) (hmark : ∀ loop, pc ≠ .sleepMark loop)
    (hsleeps : ∀ u c, s'.sleepsOn u c → s.sleepsOn u c)
    (howes : ∀ u c, old.owes c s.pipe u → pc.owes c s.pipe u) : Owed s' :=
  h.walk hinv hold hpc hpipe (fun u c _ hu => .inr (howes u c hu)) fun u c hu =>
    .inl (waits_of_update hpc hmark hsleeps u c hu)

theorem sleepsOn_of_setState {state : ProcState} (hne : state ≠ .sleeping)
    (h : (s.setState t state).sleepsOn u c) : s.sleepsOn u c := by
  by_cases hut : u = t
  · subst hut
    exact absurd (by simpa using h.1) hne
  · simpa [hut] using h

theorem Pipe.count_store (p : Pipe) (byte : UInt8) : (p.store byte).count ≤ p.count + 1 := by
  simp only [Pipe.count, Pipe.store, List.length_append, List.length_singleton]
  omega

section

variable (h : Owed s) (hinv : Inv s)
include h hinv

theorem owed_wakeTurn {chan : Chan} {rest : List (Fin m)} {next : Next}
    (hpc : s.pc t = .wakeup1 chan (u :: rest) next) :
    Owed ((wakeTurn s u chan).goto t (.wakeup1 chan rest next)) := by
  obtain ⟨hpipe, -, -, hpcs⟩ := wakeTurn_same s u chan
  have hsleeps : ∀ v d, (wakeTurn s u chan).sleepsOn v d →
      s.sleepsOn v d ∧ ¬ (v = u ∧ d = chan) := by
    intro v d hv
    unfold wakeTurn at hv
    split at hv
    · by_cases hvu : v = u
      · simp [hvu] at hv
      · exact ⟨by simpa [hvu] using hv, fun hsame => hvu hsame.1⟩
    · rename_i hnot
      refine ⟨hv, ?_⟩
      rintro ⟨rfl, rfl⟩
      exact hnot hv
  have hpc' : ((wakeTurn s u chan).goto t (.wakeup1 chan rest next)).pc =
      update s.pc t (.wakeup1 chan rest next) := by
    simp only [State.goto, hpcs]
  refine h.walk hinv hpc hpc' hpipe ?_ fun v d hv =>
    .inl (waits_of_update hpc' (by simp) (fun w e hw => (hsleeps w e hw).1) v d hv)
  intro v d hv howes
  right
  refine ⟨howes.1, (List.mem_cons.mp howes.2).resolve_left fun hvu => ?_⟩
  rcases hv with ⟨loop, hloop, -⟩ | hsleep
  · -- whoever is about to mark itself holds `ptable.lock`, as the waker does
    rw [hpc'] at hloop
    by_cases hvt : v = t
    · simp [hvt] at hloop
    · rw [update_of_ne hvt] at hloop
      exact hvt (hinv.ptable.same (by rw [hloop]; trivial) (by rw [hpc]; trivial))
  · exact (hsleeps v d hsleep).2 ⟨hvu, howes.1.symm⟩

theorem owed_sleepMark {loop : Loop} (hpc : s.pc t = .sleepMark loop) :
    Owed ({ s.setState t .sleeping with
      chan := update s.chan t (some loop.chan) }.goto t (.sched loop)) := by
  refine h.walk hinv hpc rfl rfl (fun v d _ howes => howes.elim) ?_
  rintro v d (⟨loop', hloop, hchan⟩ | hsleep)
  · by_cases hvt : v = t
    · simp [hvt] at hloop
    · exact .inl (.inl ⟨loop', by simpa [hvt] using hloop, hchan⟩)
  · by_cases hvt : v = t
    · subst hvt
      have hchan : loop.chan = d := by simpa using hsleep.2
      exact .inl (.inl ⟨loop, hpc, hchan⟩)
    · refine .inl (.inr ?_)
      simpa [hvt] using hsleep

/-- Nobody waits to read while a byte is there, except for a wakeup that the
holder of the lock owes. -/
theorem owed_store {n : Int} {i : Nat} {byte : UInt8}
    (hpc : s.pc t = .store n i) :
    Owed ({ s with pipe := s.pipe.store byte }.goto t (.loop (.write n (i + 1)))) := by
  have hroom : ¬ s.pipe.full := by
    have hknows := hinv.knows t
    rw [hpc] at hknows
    exact hknows.2
  refine h.change hinv hpc rfl (.inr trivial) (by simp) (fun _ _ hw => hw) ?_ ?_
  · intro v d hblocked
    cases d with
    | nread =>
      have hzero := hinv.stream.empty_iff.mp hblocked.1
      have hcount := Pipe.count_store s.pipe byte
      exact .inr ⟨rfl, by simp only [State.goto]; omega⟩
    | nwrite => exact absurd hblocked.1 hroom
  · rintro v d ⟨rfl, hle⟩
    have hcount := Pipe.count_store s.pipe byte
    exact .inr ⟨rfl, by simp only [State.goto]; omega⟩

theorem owed_take {n : Int} {i : Nat} (hpc : s.pc t = .take n i) :
    Owed ({ s with pipe := s.pipe.take }.goto t (.copy n (i + 1))) := by
  have hknows : s.pipe.nread ≠ s.pipe.nwrite := by
    have hknows := hinv.knows t
    rwa [hpc] at hknows
  refine h.change hinv hpc rfl (.inr trivial) (by simp) (fun _ _ hw => hw) ?_ ?_
  · intro v d hblocked
    cases d with
    | nread => exact absurd hblocked.1 hknows
    | nwrite => exact .inr rfl
  · exact fun v d howes => .inr howes

theorem owed_closing {writable : Bool}
    (hpc : s.pc t = .closing writable) :
    Owed ({ s with pipe := s.pipe.close writable }.goto t
      (.wakeup (if writable then .nread else .nwrite) .close)) := by
  refine h.change hinv hpc rfl (.inr trivial) (by simp) (fun _ _ hw => hw) ?_ ?_
  · intro v d hblocked
    cases writable with
    | true =>
      cases d with
      | nread => exact .inr rfl
      | nwrite => exact .inl hblocked
    | false =>
      cases d with
      | nread => exact .inl hblocked
      | nwrite => exact .inr rfl
  · exact fun v d howes => howes.elim

/-- A failing `pipewrite` of at most `PIPESIZE` bytes leaves nobody behind: the
pipe is full with bytes that were not all stored by this call. -/
theorem owed_fail {n : Int} {i : Nat}
    (hpc : s.pc t = .loop (.write n i)) (hlt : ↑i < n) (hfull : s.pipe.full)
    (hsmall : n ≤ (pipesize : Int)) :
    Owed ({ s with lock := none }.goto t (.user (some (-1)))) := by
  refine h.plain hinv hpc rfl rfl (by simp) (fun _ _ hw => hw) ?_
  intro v d howes
  have hcount := hinv.stream.full_iff.mp hfull
  have hle := howes.2
  omega

theorem owed_threadStep {killed : Bool} {byte : UInt8}
    (hsmall : ∀ n, s.fails t killed = some n → n ≤ (pipesize : Int))
    (hstep : threadStep s t killed byte (s.pc t) = some s') : Owed s' := by
  generalize hpc : s.pc t = pc at hstep
  cases pc with
  | user ret => cases hstep
  | acquire call =>
    obtain ⟨-, rfl⟩ := taken hstep
    refine h.plain hinv hpc rfl rfl ?_ (fun _ _ hw => hw) (by simp)
    cases call <;> simp [Call.enter]
  | loop loop =>
    cases loop with
    | write n i =>
      simp only [threadStep] at hstep
      split at hstep
      · rename_i hlt
        split at hstep
        · rename_i hfull
          split at hstep
          · rename_i hfails
            cases hstep
            refine owed_fail h hinv hpc hlt hfull (hsmall n ?_)
            simp only [State.fails, hpc]
            exact if_pos ⟨hlt, hfull, hfails⟩
          · cases hstep
            exact h.plain hinv hpc rfl rfl (by simp) (fun _ _ hw => hw) fun v d howes =>
              howes.1.symm
        · cases hstep
          exact h.plain hinv hpc rfl rfl (by simp) (fun _ _ hw => hw) fun v d howes => howes
      · cases hstep
        exact h.plain hinv hpc rfl rfl (by simp) (fun _ _ hw => hw) fun v d howes => howes.1.symm
    | read n =>
      simp only [threadStep] at hstep
      split at hstep
      · split at hstep <;> cases hstep <;>
          exact h.plain hinv hpc rfl rfl (by simp) (fun _ _ hw => hw) (by simp)
      · cases hstep
        exact h.plain hinv hpc rfl rfl (by simp) (fun _ _ hw => hw) (by simp)
  | store n i =>
    cases hstep
    exact owed_store h hinv hpc
  | copy n i =>
    simp only [threadStep] at hstep
    split at hstep
    · cases hstep
      exact h.plain hinv hpc rfl rfl (by simp) (fun _ _ hw => hw) fun v d howes => howes
    · cases hstep
      exact h.plain hinv hpc rfl rfl (by simp) (fun _ _ hw => hw) fun v d howes => howes.symm
  | take n i =>
    cases hstep
    exact owed_take h hinv hpc
  | closing writable =>
    cases hstep
    exact owed_closing h hinv hpc
  | wakeup chan next =>
    obtain ⟨-, rfl⟩ := taken hstep
    exact h.plain hinv hpc rfl rfl (by simp) (fun _ _ hw => hw) fun v d howes =>
      ⟨howes, List.mem_finRange v⟩
  | wakeup1 chan rest next =>
    cases rest with
    | cons u rest =>
      cases hstep
      exact owed_wakeTurn h hinv hpc
    | nil =>
      cases hstep
      refine h.plain hinv hpc rfl rfl ?_ (fun _ _ hw => hw) (by simp)
      cases next <;> simp [Next.pc]
  | sleep loop =>
    obtain ⟨-, rfl⟩ := taken hstep
    exact h.plain hinv hpc rfl rfl (by simp) (fun _ _ hw => hw) (by simp)
  | sleepRelease loop =>
    cases hstep
    have hblocked : s.pipe.blocked loop.chan := by
      have hknows := hinv.knows t
      rwa [hpc] at hknows
    refine h.walk hinv hpc rfl rfl (fun u c _ howes => howes.elim) ?_
    rintro v d (⟨loop', hloop, rfl⟩ | hsleep)
    · by_cases hvt : v = t
      · have hsame : loop = loop' := by simpa [hvt] using hloop
        exact .inr (hsame ▸ hblocked)
      · exact .inl (.inl ⟨loop', by simpa [hvt] using hloop, rfl⟩)
    · exact .inl (.inr hsleep)
  | sleepMark loop =>
    cases hstep
    exact owed_sleepMark h hinv hpc
  | switched loop =>
    obtain ⟨-, rfl⟩ := taken hstep
    exact h.plain hinv hpc rfl rfl (by simp) (fun _ _ hw => sleepsOn_of_setState (by decide) hw)
      (by simp)
  | woken loop =>
    cases hstep
    refine h.plain hinv hpc rfl rfl (by simp) ?_ (by simp)
    intro v d hv
    by_cases hvt : v = t
    · simp [hvt] at hv
    · simpa [hvt] using hv
  | reacquire loop =>
    obtain ⟨-, rfl⟩ := taken hstep
    exact h.plain hinv hpc rfl rfl (by simp) (fun _ _ hw => hw) (by simp)
  | sched loop | release value | kfree =>
    cases hstep
    exact h.plain hinv hpc rfl rfl (by simp) (fun _ _ hw => hw) (by simp)
  | closed =>
    cases hstep
    refine h.plain hinv hpc rfl rfl ?_ (fun _ _ hw => hw) (by simp)
    intro loop
    split <;> simp

theorem owed_step [DecidableEq P] {proc : Fin m → P} {a : Act m P}
    (hsmall : smallFailure proc s a = true) (hstep : step proc s a = some s') : Owed s' := by
  cases a with
  | call t call =>
    simp only [step] at hstep
    split at hstep
    · cases hstep
    · split at hstep
      · rename_i hpc
        cases hstep
        exact h.plain hinv hpc rfl rfl (by simp) (fun _ _ hw => hw) fun v d howes => howes.elim
      · cases hstep
  | go t byte =>
    simp only [step] at hstep
    split at hstep
    · cases hstep
    · refine owed_threadStep h hinv ?_ hstep
      intro n hfails
      simpa [smallFailure, hfails] using hsmall
  | kill p =>
    obtain ⟨-, rfl⟩ := taken hstep
    exact h

end

/-- While `p->lock` is free, whoever sleeps on `nread` has nothing to read and
may still get something, and whoever sleeps on `nwrite` has no room and may still
get some. -/
theorem no_stranded_pipe_sleeper [DecidableEq P] (proc : Fin m → P) (data : Fin pipesize → UInt8)
    (labels : List (Act m P)) (final : State m P)
    (hrun : run (step proc) (boot data) labels = some final)
    (hsmall : Meets (step proc) (fun s a => smallFailure proc s a = true) (boot data) labels)
    (hfree : final.lock = none) :
    (∀ t, final.sleepsOn t .nread →
      final.pipe.nread = final.pipe.nwrite ∧ final.pipe.writeopen = true) ∧
    ∀ t, final.sleepsOn t .nwrite → final.pipe.full ∧ final.pipe.readopen = true := by
  have hkeep : ∀ (s : State m P) a next, Inv s ∧ Owed s → smallFailure proc s a = true →
      step proc s a = some next → Inv next ∧ Owed next := fun _ _ _ h hsmall hstep =>
    ⟨inv_step h.1 hstep, owed_step h.2 h.1 hsmall hstep⟩
  have hboot : Owed (boot data : State m P) := by
    intro t c hwaits
    simp [State.waits, boot] at hwaits
  obtain ⟨hinv, howed⟩ := run_invariant hkeep ⟨inv_boot data, hboot⟩ hsmall hrun
  have hblocked : ∀ t c, final.sleepsOn t c → final.pipe.blocked c := by
    intro t c hsleep
    refine (howed t c (.inr hsleep)).resolve_right ?_
    rintro ⟨u, hu⟩
    have hlock := hinv.lock
    rw [hfree] at hlock
    exact hlock.outside u (Pc.holds_of_owes hu)
  exact ⟨fun t ht => hblocked t .nread ht, fun t ht => hblocked t .nwrite ht⟩

/-- Two bytes are written and read, then the reader waits for more. -/
def readAgain : List (Act 2 (Fin 2)) :=
  calls writer (.write 2) (List.replicate 11 7) ++
    calls reader (.read 5) (List.replicate 12 0) ++ calls reader (.read 1) (List.replicate 6 0)

theorem no_stranded_pipe_sleeper_read_again :
    ∃ final, run (step id) (boot fun _ => 0) readAgain = some final ∧
      final.sleepsOn reader .nread ∧
      final.pipe.nread = final.pipe.nwrite ∧ final.pipe.writeopen = true := by
  obtain ⟨final, hrun, hlock, hsleeps⟩ : ∃ final, run (step id) (boot fun _ => 0) readAgain =
      some final ∧ final.lock = none ∧ final.state reader = .sleeping ∧
      final.chan reader = some .nread := by
    decide +kernel
  exact ⟨final, hrun, hsleeps,
    (no_stranded_pipe_sleeper id _ _ final hrun (by decide +kernel) hlock).1 reader hsleeps⟩

/-- A reader waits on the empty pipe; a killed process writes one byte more than
there is room for. -/
def killedWriter : List (Act 2 (Fin 2)) :=
  calls reader (.read 1) (List.replicate 6 0) ++ [.kill writer] ++
    calls writer (.write (pipesize + 1)) (List.replicate (2 * pipesize + 2) 7)

/-- The write fails after it has filled the pipe and wakes nobody. -/
theorem pipe_reader_sleeps_on_full_pipe :
    ∃ final, run (step id) (boot fun _ => 0) killedWriter = some final ∧ final.lock = none ∧
      final.sleepsOn reader .nread ∧ final.pipe.full ∧ final.pipe.nread ≠ final.pipe.nwrite := by
  simp only [State.sleepsOn, Pipe.full]
  decide +kernel

end Xv6.Pipes
