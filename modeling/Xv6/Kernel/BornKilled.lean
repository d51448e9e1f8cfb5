import Xv6.Kernel.Family

/-! Where `proc->killed` comes from. `kill` compares pids and does not look at the
state of the entry, `wait` clears the flag and the pid, and `allocproc` and `fork` do
not touch the flag. So a flag that is stored in an `UNUSED` entry stays for the process
that is made there. -/
namespace Xv6.Family
open Transition

/-- The steps of `Act`, and a trap in user space that `trap` answers with
`proc->killed = 1`. -/
inductive Trap where
  | act (a : Act)
  | fault (p : Id)

def fault (s : State) (p : Id) : State :=
  s.setProc p { s.proc p with killed := true }

def State.inUser (s : State) (p : Id) : Bool :=
  match s.pc p with
  | .user _ => s.onCpu p
  | _ => false

def trapStep (s : State) : Trap → Option State
  | .act a => step s a
  | .fault p => if s.inUser p then some (fault s p) else none

def killTarget (s : State) (pid : Int) : Option Id :=
  (List.finRange nproc).find? fun q => s.pid q = pid

/-- The step is a `kill` with the pid of the process, or its fatal trap. -/
def Targets (s : State) (p : Id) : Trap → Prop
  | .act (.kill _ pid) => pid = s.pid p
  | .fault q => q = p
  | _ => False

variable {s s' : State} {a : Trap} {p q : Id}

inductive Life (s : State) (a : Trap) (s' : State) (p : Id) : Prop
  | kept (hpid : s'.pid p = s.pid p) (hkilled : (s'.proc p).killed = (s.proc p).killed)
      (hstate : s'.state p = .unused ↔ s.state p = .unused)
  | target (hpid : s'.pid p = s.pid p) (hstate : s'.state p = s.state p) (h : Targets s p a)
      (hkill : ∀ r pid, a = .act (.kill r pid) → killTarget s pid = some p)
  | taken (hold : s.state p = .unused) (hkilled : (s'.proc p).killed = (s.proc p).killed)
  | failed (hgone : s'.state p = .unused) (hkilled : (s'.proc p).killed = (s.proc p).killed)
      (r : Id) (ha : a = .act (.copyuvm r false)) (hpc : s.pc r = .copyuvm p)
  | reaped (hgone : s'.state p = .unused) (hkilled : (s'.proc p).killed = false)

def State.flags (s : State) (p : Id) : Int × Bool × ProcState :=
  (s.pid p, (s.proc p).killed, s.state p)

theorem Life.of_flags (h : s'.flags p = s.flags p) : Life s a s' p := by
  simp only [State.flags, Prod.mk.injEq] at h
  exact .kept h.1 h.2.1 (by rw [h.2.2])

theorem Life.of_eq (hproc : s'.proc = s.proc) : Life s a s' p :=
  .of_flags (by simp only [State.flags, State.pid, State.state, hproc])

theorem Life.of_update {proc : Proc} (hproc : s'.proc = Function.update s.proc q proc)
    (hself : s'.proc q = proc → Life s a s' q) : Life s a s' p := by
  by_cases hp : p = q
  · subst hp
    exact hself (by rw [hproc, Function.update_self])
  · have hsame : s'.proc p = s.proc p := by rw [hproc, Function.update_of_ne hp]
    exact .kept (by rw [State.pid, hsame, State.pid]) (by rw [hsame])
      (by rw [State.state, hsame, State.state])

theorem Life.of_store {proc : Proc} (hproc : s'.proc = Function.update s.proc q proc)
    (hpid : proc.pid = s.pid q) (hkilled : proc.killed = (s.proc q).killed)
    (hstate : proc.state = .unused ↔ s.state q = .unused) : Life s a s' p :=
  .of_update hproc fun hself =>
    .kept (by rw [State.pid, hself, hpid]) (by rw [hself, hkilled])
      (by rw [State.state, hself, hstate])

theorem wakeup1_flags (s : State) (chan : Option Id) (p : Id) :
    (wakeup1 s chan).flags p = s.flags p := by
  simp only [State.flags, State.pid, State.state, wakeup1]
  split <;> rfl

theorem exitTurn_flags (s : State) (q r p : Id) : (exitTurn s q r).flags p = s.flags p := by
  have hgiven : (s.setProc r { s.proc r with parent := some s.initproc }).flags p = s.flags p := by
    by_cases hp : p = r <;> simp [State.flags, State.pid, State.state, State.setProc, hp]
  unfold exitTurn
  split
  · split
    · exact (wakeup1_flags _ _ p).trans hgiven
    · exact hgiven
  · rfl

theorem life_go (h : Inv s) (hstep : go s q (s.pc q) = some s') : Life s a s' p := by
  cases hpc : s.pc q with
  | setParent r =>
    rw [hpc] at hstep
    cases hstep
    exact .of_store rfl rfl rfl Iff.rfl
  | forkDone r =>
    rw [hpc] at hstep
    obtain ⟨-, rfl⟩ := taken hstep
    have hembryo := ((h.at' q).forks r (by rw [hpc]; rfl)).1
    exact .of_store rfl rfl rfl (by simp [hembryo])
  | exit =>
    rw [hpc] at hstep
    obtain ⟨-, rfl⟩ := taken hstep
    exact .of_eq rfl
  | exitWake =>
    rw [hpc] at hstep
    cases hstep
    exact .of_flags (wakeup1_flags s _ p)
  | exitScan rest =>
    rw [hpc] at hstep
    cases rest with
    | nil =>
      cases hstep
      exact .of_eq rfl
    | cons r rest =>
      cases hstep
      exact .of_flags (exitTurn_flags s q r p)
  | exitMark =>
    rw [hpc] at hstep
    cases hstep
    have hlive := h.runnable (p := q) (by rw [hpc]; trivial)
    exact .of_store rfl rfl rfl (by simp [hlive])
  | exited =>
    rw [hpc] at hstep
    cases hstep
    exact .of_eq rfl
  | wait =>
    rw [hpc] at hstep
    obtain ⟨-, rfl⟩ := taken hstep
    exact .of_eq rfl
  | waitScan rest havekids =>
    rw [hpc] at hstep
    cases rest with
    | nil =>
      simp only [go] at hstep
      split at hstep <;> cases hstep <;> exact .of_eq rfl
    | cons r rest =>
      simp only [go] at hstep
      split at hstep
      · split at hstep <;> cases hstep
        · refine .of_update rfl fun hself => .reaped ?_ ?_
          · rw [State.state, hself]
          · rw [hself]
        · exact .of_eq rfl
      · cases hstep
        exact .of_eq rfl
  | waitSleep =>
    rw [hpc] at hstep
    cases hstep
    exact .of_store rfl rfl rfl Iff.rfl
  | waitSched =>
    rw [hpc] at hstep
    cases hstep
    exact .of_eq rfl
  | _ =>
    rw [hpc] at hstep
    cases hstep

theorem life_running {b : Act} (h : Inv s) (hstep : running s b.proc b = some s') :
    Life s (.act b) s' p := by
  cases b with
  | call r call =>
    simp only [running] at hstep
    split at hstep
    · cases hstep
      exact .of_eq rfl
    · cases hstep
  | go r => exact life_go h hstep
  | alloc r found =>
    obtain ⟨-, hnext⟩ := Option.ite_none_right_eq_some.mp hstep
    cases found with
    | none =>
      cases hnext
      exact .of_eq rfl
    | some r =>
      obtain ⟨hunused, hnext'⟩ := Option.ite_none_right_eq_some.mp hnext
      cases hnext'
      exact .of_update rfl fun hself => .taken hunused (by rw [hself])
  | kalloc r ok =>
    simp only [running] at hstep
    split at hstep
    · split at hstep <;> cases hstep
      · exact .of_store rfl rfl rfl Iff.rfl
      · exact .of_eq rfl
    · cases hstep
  | copyuvm r ok =>
    simp only [running] at hstep
    split at hstep
    · rename_i made hpc
      split at hstep <;> cases hstep
      · exact .of_eq rfl
      · rename_i hok
        obtain rfl : ok = false := by simpa using hok
        refine .of_update rfl fun hself => .failed ?_ ?_ r rfl hpc
        · rw [State.state, hself]
        · rw [hself]
    · cases hstep
  | kill r pid =>
    obtain ⟨-, rfl⟩ := taken hstep
    unfold kill
    split
    · exact .of_eq rfl
    · rename_i target hfind
      refine .of_update rfl fun hself => .target ?_ ?_ ?_ ?_
      · rw [State.pid, hself, State.pid]
      · rw [State.state, hself, State.state]
      · have hpid : (s.proc target).pid = pid := by simpa using List.find?_some hfind
        exact hpid.symm
      · rintro _ _ ⟨⟩
        exact hfind
  | tick r =>
    obtain ⟨-, rfl⟩ := taken hstep
    exact .of_store rfl rfl rfl Iff.rfl
  | pick r => cases hstep

theorem life_step (h : Inv s) (hstep : trapStep s a = some s') : Life s a s' p := by
  cases a with
  | act b =>
    cases b with
    | pick q =>
      obtain ⟨-, hnext⟩ := Option.ite_none_right_eq_some.mp hstep
      split at hnext <;> cases hnext <;> exact .of_store rfl rfl rfl Iff.rfl
    | _ =>
      obtain ⟨-, hnext⟩ := Option.ite_none_right_eq_some.mp hstep
      exact life_running h hnext
  | fault q =>
    obtain ⟨-, rfl⟩ := taken hstep
    refine .of_update rfl fun hself => .target ?_ ?_ rfl (fun _ _ heq => by cases heq)
    · rw [State.pid, hself, State.pid]
    · rw [State.state, hself, State.state]

theorem runnable_of_inUser (h : Inv s) (hp : s.inUser p = true) : s.state p = .runnable := by
  apply h.runnable
  unfold State.inUser at hp
  split at hp
  · rename_i hpc
    rw [hpc]
    trivial
  · cases hp

theorem inv_trapStep (h : Inv s) (hstep : trapStep s a = some s') : Inv s' := by
  cases a with
  | act b => exact inv_step h hstep
  | fault q =>
    obtain ⟨-, rfl⟩ := taken hstep
    exact inv_tstate h rfl rfl rfl fun hsleep => ⟨hsleep, rfl⟩

/-- No `kill` hits an `UNUSED` entry, and no `fork` gives an entry back that was killed
while the `fork` was under way. -/
def KillsLive (s : State) : Trap → Prop
  | .act (.kill _ pid) => ∀ q, killTarget s pid = some q → s.state q ≠ .unused
  | .act (.copyuvm p false) => ∀ q, s.pc p = .copyuvm q → (s.proc q).killed = false
  | _ => True

instance (s : State) (a : Trap) : Decidable (KillsLive s a) :=
  match a with
  | .act (.kill _ pid) =>
    inferInstanceAs (Decidable (∀ q, killTarget s pid = some q → s.state q ≠ .unused))
  | .act (.copyuvm p false) =>
    inferInstanceAs (Decidable (∀ q, s.pc p = .copyuvm q → (s.proc q).killed = false))
  | .act (.copyuvm _ true) | .act (.call _ _) | .act (.go _) | .act (.alloc _ _)
  | .act (.kalloc _ _) | .act (.tick _) | .act (.pick _) | .fault _ => isTrue trivial

def Clean (s : State) : Prop :=
  ∀ p, s.state p = .unused → (s.proc p).killed = false

theorem clean_step (h : Inv s) (hclean : Clean s) (hguard : KillsLive s a)
    (hstep : trapStep s a = some s') : Clean s' := by
  intro p hp
  cases life_step (p := p) h hstep with
  | kept hpid hkilled hstate => rw [hkilled, hclean p (hstate.mp hp)]
  | target hpid hstate htarget hkill =>
    rw [hstate] at hp
    match a with
    | .act (.kill r pid) => exact absurd hp (hguard p (hkill r pid rfl))
    | .fault q =>
      cases htarget
      obtain ⟨hrun, -⟩ := Option.ite_none_right_eq_some.mp hstep
      cases hp.symm.trans (runnable_of_inUser h hrun)
  | taken hold hkilled => rw [hkilled, hclean p hold]
  | failed hgone hkilled r ha hpc =>
    subst ha
    rw [hkilled, hguard p hpc]
  | reaped hgone hkilled => exact hkilled

/-- The entry holds the process with this pid, and its flag is set. -/
def Condemned (p : Id) (pid : Int) (s : State) : Prop :=
  s.state p ≠ .unused ∧ s.pid p = pid ∧ (s.proc p).killed = true

/-- The step is a `kill` with the pid of the process in the entry, or its fatal trap. -/
def Condemns (p : Id) (pid : Int) (s : State) (a : Trap) : Prop :=
  s.state p ≠ .unused ∧ s.pid p = pid ∧ Targets s p a

theorem condemned_step {pid : Int} (h : Inv s) (hclean : Clean s)
    (hstep : trapStep s a = some s') (hcondemned : Condemned p pid s') :
    Condemned p pid s ∨ Condemns p pid s a := by
  obtain ⟨hused, hpid', hflag⟩ := hcondemned
  cases life_step (p := p) h hstep with
  | kept hpid hkilled hstate =>
    exact Or.inl ⟨fun hold => hused (hstate.mpr hold), hpid.symm.trans hpid', hkilled.symm.trans
      hflag⟩
  | target hpid hstate htarget hkill =>
    exact Or.inr ⟨by rwa [hstate] at hused, hpid.symm.trans hpid', htarget⟩
  | taken hold hkilled =>
    rw [hkilled, hclean p hold] at hflag
    cases hflag
  | failed hgone hkilled r ha hpc | reaped hgone hkilled => exact absurd hgone hused

/-- No process is born killed: a process with the flag was the target of a `kill` with
its pid or took a fatal trap, and has been the same process in the same entry since. -/
theorem killed_has_cause {labels : List Trap} {final : State}
    (hmeets : Meets trapStep KillsLive boot labels)
    (hrun : run trapStep boot labels = some final) (p : Id) (hused : final.state p ≠ .unused)
    (hkilled : (final.proc p).killed = true) :
    ∃ before a after mid, labels = before ++ a :: after ∧ run trapStep boot before = some mid ∧
      Condemns p (final.pid p) mid a ∧
      Along trapStep (fun _ _ next => Condemned p (final.pid p) next) mid (a :: after) := by
  have hboot : ∀ q, (boot.proc q).killed = false := by
    intro q
    simp only [boot]
    split <;> rfl
  have hinv : ∀ s a next, Inv s ∧ Clean s → KillsLive s a → trapStep s a = some next →
      Inv next ∧ Clean next := fun s a next h hguard hstep =>
    ⟨inv_trapStep h.1 hstep, clean_step h.1 h.2 hguard hstep⟩
  have horigin := run_origin hinv
    (fun s a next h _ hstep hfact => condemned_step h.1 h.2 hstep hfact)
    ⟨inv_boot, fun q _ => hboot q⟩ hmeets hrun ⟨hused, rfl, hkilled⟩
  rcases horigin with ⟨⟨-, -, hflag⟩, -⟩ | hcause
  · rw [hboot p] at hflag
    cases hflag
  · exact hcause

/-- `init` forks a process and kills it. -/
def killsChild : List Trap :=
  (Act.pick init :: forks init proc1 ++ [Act.kill init 2]).map .act

theorem killed_has_cause_child :
    ∃ final, run trapStep boot killsChild = some final ∧ final.state proc1 ≠ .unused ∧
      (final.proc proc1).killed = true ∧
      ∃ before a after mid, killsChild = before ++ a :: after ∧
        run trapStep boot before = some mid ∧ Condemns proc1 (final.pid proc1) mid a ∧
        Along trapStep (fun _ _ next => Condemned proc1 (final.pid proc1) next) mid
          (a :: after) := by
  obtain ⟨final, hrun, hstate, hkilled⟩ : ∃ final, run trapStep boot killsChild = some final ∧
      final.state proc1 = .runnable ∧ (final.proc proc1).killed = true := by
    decide +kernel
  have hused : final.state proc1 ≠ .unused := by simp [hstate]
  exact ⟨final, hrun, hused, hkilled,
    killed_has_cause (by decide +kernel) hrun proc1 hused hkilled⟩

/-- `init` calls `kill(0)`, which finds the pid of a free entry, and then forks. -/
def killsZero : List Trap :=
  (Act.pick init :: Act.kill init 0 :: forks init proc1).map .act

/-- The new process has pid 2 and the flag, and nobody called `kill(2)` or trapped. -/
theorem born_killed :
    ∃ final, run trapStep boot killsZero = some final ∧ final.state proc1 = .runnable ∧
      final.pid proc1 = 2 ∧ (final.proc proc1).killed = true ∧
      ∀ s, ∀ a ∈ killsZero, ¬ (s.pid proc1 = final.pid proc1 ∧ Targets s proc1 a) := by
  obtain ⟨final, hrun, hstate, hpid2, hkilled⟩ : ∃ final, run trapStep boot killsZero = some final ∧
      final.state proc1 = .runnable ∧ final.pid proc1 = 2 ∧
      (final.proc proc1).killed = true := by
    decide +kernel
  refine ⟨final, hrun, hstate, hpid2, hkilled, ?_⟩
  rintro s a ha ⟨hpid, htarget⟩
  rw [hpid2] at hpid
  simp only [killsZero, forks, List.map_cons, List.map_nil, List.mem_cons, List.not_mem_nil,
    or_false] at ha
  rcases ha with rfl | rfl | rfl | rfl | rfl | rfl | rfl | rfl | rfl <;> simp [Targets] at htarget
  omega

end Xv6.Family
