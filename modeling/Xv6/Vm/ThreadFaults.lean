import Xv6.Vm.EagerFork

/-! Page faults in processes with several threads on several CPUs. A store that
meets an entry without `PTE_W` faults at once; `cow_copyuvm` looks at the page
table later, when the thread gets `pg_count_lock`. -/
namespace Xv6.Vm
open Transition Simulation

attribute [local simp] Machine.setDir

/-- A thread runs in user mode, waits in the handler for the lock, or is about to
return from it. `forked` records whether its process has called `cow_fork` since
the handler was done. -/
inductive Phase where
  | user
  | faulted (va : Nat)
  | handled (va : Nat) (forked : Bool)
deriving DecidableEq, Repr

structure Threaded (n : Nat) where
  machine : Machine
  phase : Slot → Fin n → Phase

/-- The steps of the threads. The calls are those that keep the address spaces
whole. -/
inductive ThreadAct (n : Nat) where
  | store (p : Slot) (t : Fin n) (va : Nat) (byte : UInt8)
  | handle (p : Slot) (t : Fin n)
  | resume (p : Slot) (t : Fin n)
  | call (p : Slot) (a : Act)

section

variable {n : Nat}

def Threaded.setPhase (s : Threaded n) (p : Slot) (t : Fin n) (phase : Phase) : Threaded n :=
  { s with phase := Function.update s.phase p (Function.update (s.phase p) t phase) }

/-- The page fault of `trap` at `va`, after the lock has been taken. When
`cow_copyuvm` returns 0 the process is marked as killed. -/
def trapHandle (s : Machine) (p : Slot) (va : Nat) : Option (Bool × Machine) :=
  (s.procs p).pgdir.map fun d =>
    match cowCopyuvm s.mem d va (s.procs p).sz with
    | (true, d, m) => (true, { s.setDir p d with mem := m })
    | (false, d, m) =>
      (false, { s.setProc p { s.procs p with pgdir := some d, killed := true } with mem := m })

/-- What a call of its process does to a thread. -/
def afterCall (a : Act) (phase : Phase) : Phase :=
  match a, phase with
  | .exit, _ => .user
  | .cowFork, .handled va _ => .handled va true
  | _, phase => phase

def threadStep (s : Threaded n) : ThreadAct n → Option (Threaded n)
  | .store p t va byte =>
    if (s.machine.procs p).state = .runnable ∧ s.phase p t = .user then
      match s.machine.entry p (va / pgsize) with
      | some ⟨q, _, ⟨true, true, _⟩⟩ =>
        some { s with machine := { s.machine with
          mem := s.machine.mem.writeByte q (offset va) byte } }
      | _ => some (s.setPhase p t (.faulted va))
    else none
  | .handle p t =>
    match s.phase p t with
    | .faulted va =>
      (trapHandle s.machine p va).map fun result =>
        { s.setPhase p t (if result.1 then .handled va false else .user) with machine := result.2 }
    | _ => none
  | .resume p t =>
    match s.phase p t with
    | .handled _ _ => some (s.setPhase p t .user)
    | _ => none
  | .call p a =>
    (step s.machine (p, a)).map fun machine =>
      ⟨machine, Function.update s.phase p fun t => afterCall a (s.phase p t)⟩

/-- The thread waits in the handler for page `v`. -/
def Phase.waitsFor : Phase → Nat → Bool
  | .faulted va, v => va / pgsize == v
  | _, _ => false

def KeepsSpaces : Act → Prop
  | .fork => True
  | .cowFork => True
  | .exit => True
  | .cowWait => True
  | .sbrk n => 0 ≤ n
  | _ => False

/-- Stores at user addresses below the size. A store that faults does so while no
other thread of the process is in the handler for the page. -/
def ThreadGuard (s : Threaded n) : ThreadAct n → Prop
  | .store p t va _ =>
    va < (s.machine.procs p).sz ∧
      (s.machine.entry p (va / pgsize)).any (fun pte => pte.flags.u) = true ∧
      ((s.machine.entry p (va / pgsize)).any (fun pte => pte.flags.w) = false →
        ∀ t', t' ≠ t → (s.phase p t').waitsFor (va / pgsize) = false)
  | .call _ a => KeepsSpaces a
  | _ => True

def ThreadKallocs (s : Threaded n) (labels : List (ThreadAct n)) : Prop :=
  Along threadStep (fun _ _ next => next.machine.mem.kfailed = false) s labels

end

section

variable {kend : Nat} {s s' : Machine} {p x : Slot} {a : Act} {v : Nat} {pte : Pte}

theorem KeepsSpaces.guard (h : KeepsSpaces a) : ForkGuard s (x, a) := by
  cases a <;> first | exact trivial | exact h | exact h.elim

/-- What another process or thread can do to a process that runs. -/
structure Kept (s s' : Machine) (p : Slot) : Prop where
  state : (s'.procs p).state = (s.procs p).state
  size : (s.procs p).sz ≤ (s'.procs p).sz
  killed : (s'.procs p).killed = (s.procs p).killed

theorem kept_of_eq (h : s'.procs p = s.procs p) : Kept s s' p :=
  ⟨by rw [h], by rw [h], by rw [h]⟩

theorem entry_of_procs (h : s'.procs p = s.procs p) : s'.entry p v = s.entry p v :=
  entry_congr (by rw [h])

theorem kept_born {c : Slot} {src src' d : PageDir} (hp : (s.procs p).state = .runnable)
    (hborn : Born s x c src src' d s') : Kept s s' p ∧ (x ≠ p → s'.procs p = s.procs p) := by
  have hpc : p ≠ c := by
    rintro rfl
    have hunused := unusedSlot_state hborn.slot
    rw [hp] at hunused
    cases hunused
  by_cases hx : x = p
  · subst hx
    have hparent := hborn.parent
    exact ⟨⟨by rw [hparent], by rw [hparent], by rw [hparent]⟩, fun hne => absurd rfl hne⟩
  · have hsame := hborn.others p (Ne.symm hx) hpc
    exact ⟨kept_of_eq hsame, fun _ => hsame⟩

theorem call_kept (h : Sound kend s) (hkeeps : KeepsSpaces a) (hstep : step s (x, a) = some s')
    (hcalm : s'.mem.kfailed = false) (hp : (s.procs p).state = .runnable)
    (hexit : x = p → a ≠ .exit) :
    Kept s s' p ∧ ∀ v, v < pages (s.procs p).sz → s'.entry p v = s.entry p v ∨
      x = p ∧ a = .cowFork ∧ s'.entry p v = (s.entry p v).map Pte.share := by
  obtain ⟨hlive, out, hact⟩ := step_cases hstep
  cases a with
  | fork =>
    rcases fork_calm h.inv hlive hact hcalm with ⟨rfl, _⟩ | ⟨c, src, d, _, hborn, _⟩
    · exact ⟨kept_of_eq rfl, fun v _ => Or.inl rfl⟩
    · obtain ⟨hkept, hsame⟩ := kept_born hp hborn
      refine ⟨hkept, fun v _ => Or.inl ?_⟩
      by_cases hx : x = p
      · subst hx
        exact entry_congr (by rw [hborn.parent, hborn.dir])
      · exact entry_of_procs (hsame hx)
  | cowFork =>
    rcases cowFork_calm h.inv hlive hact hcalm with
      ⟨rfl, _⟩ | ⟨c, src, src', d, _, hborn, _, hshared⟩
    · exact ⟨kept_of_eq rfl, fun v _ => Or.inl rfl⟩
    · obtain ⟨hkept, hsame⟩ := kept_born hp hborn
      refine ⟨hkept, fun v hv => ?_⟩
      by_cases hx : x = p
      · subst hx
        obtain ⟨pte, hsrc, hsrc', _⟩ := hshared.entry v hv
        refine Or.inr ⟨rfl, rfl, ?_⟩
        have hdir : (s'.procs x).pgdir = some src' := by rw [hborn.parent]
        rw [entry_of_dir hborn.dir, entry_of_dir hdir, hsrc, hsrc']
        rfl
      · exact Or.inl (entry_of_procs (hsame hx))
  | exit =>
    obtain ⟨s1, hexit', hresult⟩ := Option.map_eq_some_iff.mp hact
    cases hresult
    have hx : p ≠ x := fun hpx => hexit hpx.symm rfl
    obtain ⟨_, _, _, _, hothers⟩ := exit_cases hexit'
    obtain ⟨hdir, _, hsz, hstate, hkilled⟩ := reparent_same s x (s.procs p)
    refine ⟨⟨?_, ?_, ?_⟩, fun v _ => Or.inl (entry_congr ?_)⟩
    · rw [hothers p hx, hstate]
    · rw [hothers p hx, hsz]
    · rw [hothers p hx, hkilled]
    · rw [hothers p hx, hdir]
  | cowWait =>
    have hsame := waitWith_spares hact hp
    exact ⟨kept_of_eq hsame, fun v _ => Or.inl (entry_of_procs hsame)⟩
  | sbrk n =>
    obtain ⟨d, d', hd, _, hs', hgrown⟩ := growproc_calm h.inv hkeeps hact hcalm
    by_cases hx : x = p
    · subst hx
      have hself : s'.procs x = { s.procs x with
          pgdir := some d', sz := growSize (s.procs x).sz n } := by
        rw [hs']
        exact setProc_self s x _
      refine ⟨⟨by rw [hself], ?_, by rw [hself]⟩, fun v hv => Or.inl ?_⟩
      · rw [hself]
        exact growSize_le
      · have hdir : (s'.procs x).pgdir = some d' := by rw [hself]
        rw [entry_of_dir hd, entry_of_dir hdir]
        exact hgrown.outside v (Or.inl hv)
    · have hsame : s'.procs p = s.procs p := by
        rw [hs']
        exact setProc_of_ne s _ (Ne.symm hx)
      exact ⟨kept_of_eq hsame, fun v _ => Or.inl (entry_of_procs hsame)⟩
  | wait | exec img | load va | store va byte => exact hkeeps.elim

end

/-- The page at `va` of a process that runs is present, below its size and has
`PTE_SH` or not, as `sh` says. -/
structure Holds (s : Machine) (p : Slot) (va : Nat) (sh : Bool) : Prop where
  state : (s.procs p).state = .runnable
  below : va < (s.procs p).sz
  entry : ∃ pte, s.entry p (va / pgsize) = some pte ∧ pte.flags.sh = sh

/-- A thread in the handler still meets `PTE_SH`, and what it has repaired stays
so until the next `cow_fork`. -/
structure FaultInv {n : Nat} (kend : Nat) (s : Threaded n) : Prop where
  sound : Sound kend s.machine
  innocent : ∀ p, (s.machine.procs p).killed = false
  live : ∀ p t, s.phase p t ≠ .user → (s.machine.procs p).state = .runnable
  faulted : ∀ p t va, s.phase p t = .faulted va → Holds s.machine p va true
  handled : ∀ p t va, s.phase p t = .handled va false → Holds s.machine p va false
  apart : ∀ p t t' va va', t ≠ t' → s.phase p t = .faulted va → s.phase p t' = .faulted va' →
    va / pgsize ≠ va' / pgsize

section

variable {n kend : Nat} {s next : Threaded n} {p : Slot} {t : Fin n} {va : Nat}

theorem below_page {va sz : Nat} (h : va < sz) : va / pgsize < pages sz := by
  unfold pages
  simp only [pgsize]
  omega

theorem setPhase_phase (s : Threaded n) (p : Slot) (t : Fin n) (phase : Phase) (p' : Slot)
    (t' : Fin n) : (s.setPhase p t phase).phase p' t' =
      if p' = p ∧ t' = t then phase else s.phase p' t' := by
  unfold Threaded.setPhase
  by_cases hp : p' = p
  · subst hp
    by_cases ht : t' = t
    · simp [ht]
    · simp [ht]
  · simp [hp]

theorem Holds.congr {s s' : Machine} {sh : Bool} (h : Holds s p va sh) (hkept : Kept s s' p)
    (hentry : s'.entry p (va / pgsize) = s.entry p (va / pgsize)) : Holds s' p va sh where
  state := hkept.state.trans h.state
  below := lt_of_lt_of_le h.below hkept.size
  entry := by
    rw [hentry]
    exact h.entry

variable {phase : Phase}

/-- The pages and the innocence of everybody stay, one thread goes on to a phase
whose promise holds. -/
theorem FaultInv.setPhase {machine : Machine} (h : FaultInv kend s)
    (hsound : Sound kend machine)
    (hkept : ∀ p', (s.machine.procs p').state = .runnable → Kept s.machine machine p')
    (hinnocent : ∀ p', (machine.procs p').killed = false)
    (hfaulted : ∀ p' t' va', (p' = p → t' ≠ t) → s.phase p' t' = .faulted va' →
      machine.entry p' (va' / pgsize) = s.machine.entry p' (va' / pgsize))
    (hhandled : ∀ p' t' va', (p' = p → t' ≠ t) → s.phase p' t' = .handled va' false →
      Holds machine p' va' false)
    (hlive : (machine.procs p).state = .runnable)
    (hphase : ∀ va', (phase = .faulted va' → Holds machine p va' true ∧
        ∀ t', t' ≠ t → (s.phase p t').waitsFor (va' / pgsize) = false) ∧
      (phase = .handled va' false → Holds machine p va' false)) :
    FaultInv kend { s.setPhase p t phase with machine := machine } where
  sound := hsound
  innocent := hinnocent
  live := by
    intro p' t' hne
    simp only [setPhase_phase] at hne
    split at hne
    · rename_i heq
      rw [heq.1]
      exact hlive
    · have hrun := h.live p' t' hne
      exact (hkept p' hrun).state.trans hrun
  faulted := by
    intro p' t' va' hat
    simp only [setPhase_phase] at hat
    split at hat
    · rename_i heq
      rw [heq.1]
      exact ((hphase va').1 hat).1
    · rename_i hne
      have hold := h.faulted p' t' va' hat
      exact hold.congr (hkept p' hold.state)
        (hfaulted p' t' va' (fun hp ht => hne ⟨hp, ht⟩) hat)
  handled := by
    intro p' t' va' hat
    simp only [setPhase_phase] at hat
    split at hat
    · rename_i heq
      rw [heq.1]
      exact (hphase va').2 hat
    · rename_i hne
      exact hhandled p' t' va' (fun hp ht => hne ⟨hp, ht⟩) hat
  apart := by
    have hwaits : ∀ t' va1 va2, s.phase p t' = .faulted va1 →
        (s.phase p t').waitsFor va2 = false → va1 / pgsize ≠ va2 := by
      intro t' va1 va2 hat hfree heq
      simp [hat, Phase.waitsFor, heq] at hfree
    intro p' t1 t2 va1 va2 hne h1 h2
    simp only [setPhase_phase] at h1 h2
    split at h1 <;> split at h2
    · rename_i heq1 heq2
      exact absurd (heq1.2.trans heq2.2.symm) hne
    · rename_i heq1 _
      rw [heq1.1] at h2
      have hfree := ((hphase va1).1 h1).2 t2 (fun ht => hne (heq1.2.trans ht.symm))
      exact (hwaits t2 va2 _ h2 hfree).symm
    · rename_i _ heq2
      rw [heq2.1] at h1
      exact hwaits t1 va1 _ h1 (((hphase va2).1 h2).2 t1 (fun ht => hne (ht.trans heq2.2.symm)))
    · exact h.apart p' t1 t2 va1 va2 hne h1 h2

theorem faultInv_store {byte : UInt8} (h : FaultInv kend s)
    (hguard : ThreadGuard s (.store p t va byte)) (hstep : threadStep s (.store p t va byte) = some
    next) : FaultInv kend next := by
  obtain ⟨⟨hlive, huser⟩, hmatch⟩ := Option.ite_none_right_eq_some.mp hstep
  obtain ⟨hva, hu, hfree⟩ := hguard
  split at hmatch
  · rename_i q _ _ hentry
    cases hmatch
    exact ⟨sound_written h.sound _ _, h.innocent, h.live,
      fun p t va hat => (h.faulted p t va hat).congr (kept_of_eq rfl) rfl,
      fun p t va hat => (h.handled p t va hat).congr (kept_of_eq rfl) rfl, h.apart⟩
  · rename_i hnot
    cases hmatch
    obtain ⟨pte, hentry⟩ : ∃ pte, s.machine.entry p (va / pgsize) = some pte := by
      cases hentry : s.machine.entry p (va / pgsize) with
      | none => simp [hentry] at hu
      | some pte => exact ⟨pte, rfl⟩
    have hw : pte.flags.w = false := by
      obtain ⟨q, present, w, u, sh⟩ := pte
      have hu : u = true := by simpa [hentry] using hu
      cases w with
      | false => rfl
      | true =>
        subst hu
        exact absurd hentry (hnot q present sh)
    have hsh : pte.flags.sh = true := by
      have hflag := (h.sound.flagged p _ pte hentry).2
      rw [hw] at hflag
      simpa using hflag.symm
    refine h.setPhase h.sound (fun p' _ => kept_of_eq rfl) h.innocent (fun _ _ _ _ _ => rfl)
      (fun p' t' va' _ hat => h.handled p' t' va' hat) hlive fun va' => ⟨fun heq => ?_, by simp⟩
    cases heq
    exact ⟨⟨hlive, hva, pte, hentry, hsh⟩, hfree (by simp [hentry, hw])⟩

theorem trapHandle_repairs {s s' : Machine} {ok : Bool} (h : Sound kend s)
    (hold : Holds s p va true) (hhandle : trapHandle s p va = some (ok, s'))
    (hcalm : s'.mem.kfailed = false) : ok = true ∧ Sound kend s' ∧ (∀ p', Kept s s' p') ∧ Holds s' p
    va false ∧
      ∀ p' v, (p' = p → v ≠ va / pgsize) → s'.entry p' v = s.entry p' v := by
  obtain ⟨d, hd, hresult⟩ := Option.map_eq_some_iff.mp hhandle
  obtain ⟨pte, hentry, hsh⟩ := hold.entry
  have hpte : d.present (va / pgsize) = some pte := by rw [← entry_of_dir hd, hentry]
  cases hcopy : cowCopyuvm s.mem d va (s.procs p).sz with
  | mk ok1 rest =>
    obtain ⟨d', m⟩ := rest
    rw [hcopy] at hresult
    cases ok1 with
    | false =>
      cases hresult
      have hnot := cowCopyuvm_refused hcopy hcalm hold.below hpte
      rw [hsh] at hnot
      cases hnot
    | true =>
      cases hresult
      have hfault : pgfault s p va = some ({ s.setDir p d' with mem := m }, .retry) := by
        simp [pgfault, hd, hcopy]
      have hsound := (retry_users h hfault).1
      obtain ⟨pte', hunshares⟩ := (cowCopyuvm_copies hcopy).unshares h.inv hd
      have hothers : ∀ p' v, (p' = p → v ≠ va / pgsize) →
          ({ s.setDir p d' with mem := m } : Machine).entry p' v = s.entry p' v := by
        intro p' v hne
        by_cases hp : p' = p
        · subst hp
          have hdir : ({ s.setDir p' d' with mem := m } : Machine).entry p' v = d'.present v :=
            entry_of_dir (by simp)
          rw [hdir, entry_of_dir hd]
          exact hunshares.others v (hne rfl)
        · exact entry_of_procs (setDir_of_ne hp d')
      have hkept : ∀ p', Kept s { s.setDir p d' with mem := m } p' := by
        intro p'
        by_cases hp : p' = p
        · subst hp
          exact ⟨by simp, by simp, by simp⟩
        · exact kept_of_eq (setDir_of_ne hp d')
      refine ⟨rfl, hsound, hkept, ⟨(hkept p).state.trans hold.state,
        lt_of_lt_of_le hold.below (hkept p).size, ?_⟩, hothers⟩
      have hdir : ({ s.setDir p d' with mem := m } : Machine).entry p (va / pgsize) =
          d'.present (va / pgsize) := entry_of_dir (by simp)
      rw [hdir]
      rcases hunshares.moved with ⟨q, _, _, hnew, _⟩ | ⟨_, hnew, _⟩
      · exact ⟨_, hnew, rfl⟩
      · exact ⟨_, hnew, rfl⟩

theorem faultInv_handle (h : FaultInv kend s) (hstep : threadStep s (.handle p t) = some next)
    (hcalm : next.machine.mem.kfailed = false) : FaultInv kend next := by
  simp only [threadStep] at hstep
  split at hstep
  · rename_i va hat
    obtain ⟨⟨ok, machine⟩, hhandle, hresult⟩ := Option.map_eq_some_iff.mp hstep
    cases hresult
    have hold := h.faulted p t va hat
    obtain ⟨hok, hsound, hkept, hdone, hothers⟩ := trapHandle_repairs h.sound hold hhandle hcalm
    subst hok
    refine h.setPhase hsound (fun p' _ => hkept p') ?_ ?_ ?_ hdone.state fun va' => ⟨by simp, ?_⟩
    · exact fun p' => (hkept p').killed.trans (h.innocent p')
    · intro p' t' va' hne hat'
      refine hothers p' _ fun hp => ?_
      subst hp
      exact h.apart p' t' t va' va (hne rfl) hat' hat
    · intro p' t' va' _ hat'
      have hold' := h.handled p' t' va' hat'
      refine hold'.congr (hkept p') (hothers p' _ fun hp hv => ?_)
      -- the page is not repaired yet
      subst hp
      obtain ⟨pte, hentry, hsh⟩ := hold.entry
      obtain ⟨pte', hentry', hsh'⟩ := hold'.entry
      rw [hv, hentry] at hentry'
      cases hentry'
      rw [hsh] at hsh'
      cases hsh'
    · intro heq
      cases heq
      exact hdone
  · cases hstep

theorem faultInv_resume (h : FaultInv kend s) (hstep : threadStep s (.resume p t) = some next) :
    FaultInv kend next := by
  simp only [threadStep] at hstep
  split at hstep
  · rename_i va forked hat
    cases hstep
    exact h.setPhase h.sound (fun p' _ => kept_of_eq rfl) h.innocent (fun _ _ _ _ _ => rfl)
      (fun p' t' va' _ hat' => h.handled p' t' va' hat') (h.live p t (by simp [hat]))
      fun va' => ⟨by simp, by simp⟩
  · cases hstep

theorem afterCall_user (a : Act) : afterCall a .user = .user := by
  cases a <;> rfl

theorem afterCall_faulted {a : Act} (h : afterCall a phase = .faulted va) :
    phase = .faulted va ∧ a ≠ .exit := by
  unfold afterCall at h
  split at h
  · cases h
  · cases h
  · rename_i hexit _
    exact ⟨h, fun ha => hexit (ha ▸ rfl)⟩

theorem afterCall_handled {a : Act} (h : afterCall a phase = .handled va false) :
    phase = .handled va false ∧ a ≠ .exit ∧ a ≠ .cowFork := by
  unfold afterCall at h
  split at h
  · cases h
  · cases h
  · rename_i hexit hfork
    refine ⟨h, fun ha => hexit (ha ▸ rfl), fun ha => ?_⟩
    exact hfork va false (ha ▸ rfl) h

theorem call_innocent {s s' : Machine} {x : Slot} {a : Act} (h : Sound kend s)
    (hkeeps : KeepsSpaces a) (hstep : step s (x, a) = some s') (hcalm : s'.mem.kfailed = false)
    (hinnocent : ∀ p, (s.procs p).killed = false) (p : Slot) : (s'.procs p).killed = false := by
  obtain ⟨hlive, out, hact⟩ := step_cases hstep
  have hborn : ∀ {c src src' d}, Born s x c src src' d s' → (s'.procs p).killed = false := by
    intro c src src' d hborn
    by_cases hpx : p = x
    · rw [hpx, hborn.parent]
      exact hinnocent x
    · by_cases hpc : p = c
      · obtain ⟨q, hchild⟩ := hborn.child
        rw [hpc, hchild]
        exact hinnocent c
      · rw [hborn.others p hpx hpc]
        exact hinnocent p
  cases a with
  | fork =>
    rcases fork_calm h.inv hlive hact hcalm with ⟨rfl, _⟩ | ⟨c, src, d, _, hb, _⟩
    · exact hinnocent p
    · exact hborn hb
  | cowFork =>
    rcases cowFork_calm h.inv hlive hact hcalm with ⟨rfl, _⟩ | ⟨c, src, src', d, _, hb, _⟩
    · exact hinnocent p
    · exact hborn hb
  | exit =>
    obtain ⟨s1, hexit, hresult⟩ := Option.map_eq_some_iff.mp hact
    cases hresult
    obtain ⟨_, _, _, hself, hothers⟩ := exit_cases hexit
    obtain ⟨_, _, _, _, hkilled⟩ := reparent_same s x (s.procs p)
    by_cases hpx : p = x
    · subst hpx
      rw [hself]
      exact hkilled.trans (hinnocent p)
    · rw [hothers p hpx, hkilled]
      exact hinnocent p
  | cowWait =>
    rcases waitWith_cases hact with ⟨_, rfl, _⟩ | ⟨c, q, d, m1, m2, _, _, _, _, _, _, rfl⟩
    · exact hinnocent p
    · by_cases hpc : p = c
      · simp [hpc]
      · simpa [Machine.setProc, hpc] using hinnocent p
  | sbrk n =>
    obtain ⟨d, d', _, _, hs', _⟩ := growproc_calm h.inv hkeeps hact hcalm
    rw [hs']
    by_cases hpx : p = x
    · simpa [hpx] using hinnocent x
    · simpa [Machine.setProc, hpx] using hinnocent p
  | wait | exec img | load va | store va byte => exact hkeeps.elim

theorem faultInv_call {x : Slot} {a : Act} (h : FaultInv kend s) (hkeeps : KeepsSpaces a)
    (hstep : threadStep s (.call x a) = some next) (hcalm : next.machine.mem.kfailed = false) :
    FaultInv kend next := by
  obtain ⟨machine, hact, hresult⟩ := Option.map_eq_some_iff.mp hstep
  cases hresult
  obtain ⟨hlive, out, hout⟩ := step_cases hact
  have hsound := (step_users h.sound hkeeps.guard ((if_pos hlive).trans hout) hcalm).1
  -- a thread that is not in user mode afterwards was not before, and nobody exits
  have hphase : ∀ p t, (Function.update s.phase x fun t => afterCall a (s.phase x t)) p t =
      if p = x then afterCall a (s.phase p t) else s.phase p t := by
    intro p t
    by_cases hpx : p = x
    · subst hpx
      simp
    · simp [hpx]
  have hfaulted : ∀ p t va, (if p = x then afterCall a (s.phase p t) else s.phase p t) =
      .faulted va → s.phase p t = .faulted va ∧ (x = p → a ≠ .exit) := by
    intro p t va hat
    split at hat
    · obtain ⟨hold, hexit⟩ := afterCall_faulted hat
      exact ⟨hold, fun _ => hexit⟩
    · rename_i hne
      exact ⟨hat, fun heq => absurd heq.symm hne⟩
  refine ⟨hsound, call_innocent h.sound hkeeps hact hcalm h.innocent, ?_, ?_, ?_, ?_⟩
  · intro p t hne
    simp only [hphase] at hne
    have hbefore : s.phase p t ≠ .user ∧ (x = p → a ≠ .exit) := by
      split at hne
      · refine ⟨fun huser => hne ?_, fun _ hexit => hne ?_⟩
        · rw [huser, afterCall_user]
        · subst hexit
          rfl
      · rename_i hpx
        exact ⟨hne, fun heq => absurd heq.symm hpx⟩
    have hrun := h.live p t hbefore.1
    exact (call_kept h.sound hkeeps hact hcalm hrun hbefore.2).1.state.trans hrun
  · intro p t va hat
    simp only [hphase] at hat
    obtain ⟨hold, hexit⟩ := hfaulted p t va hat
    have hholds := h.faulted p t va hold
    obtain ⟨hkept, hentries⟩ := call_kept h.sound hkeeps hact hcalm hholds.state hexit
    rcases hentries _ (below_page hholds.below) with hsame | ⟨_, _, hshare⟩
    · exact hholds.congr hkept hsame
    · obtain ⟨pte, hentry, _⟩ := hholds.entry
      exact ⟨hkept.state.trans hholds.state, lt_of_lt_of_le hholds.below hkept.size, pte.share,
        by rw [hshare, hentry]; rfl, rfl⟩
  · intro p t va hat
    simp only [hphase] at hat
    have hbefore : s.phase p t = .handled va false ∧ (x = p → a ≠ .exit) ∧
        (x = p → a ≠ .cowFork) := by
      split at hat
      · obtain ⟨hold, hexit, hfork⟩ := afterCall_handled hat
        exact ⟨hold, fun _ => hexit, fun _ => hfork⟩
      · rename_i hpx
        exact ⟨hat, fun heq => absurd heq.symm hpx, fun heq => absurd heq.symm hpx⟩
    have hholds := h.handled p t va hbefore.1
    obtain ⟨hkept, hentries⟩ := call_kept h.sound hkeeps hact hcalm hholds.state hbefore.2.1
    rcases hentries _ (below_page hholds.below) with hsame | ⟨hx, hfork, _⟩
    · exact hholds.congr hkept hsame
    · exact absurd hfork (hbefore.2.2 hx)
  · intro p t t' va va' hne hat hat'
    simp only [hphase] at hat hat'
    exact h.apart p t t' va va' hne (hfaulted p t va hat).1 (hfaulted p t' va' hat').1

theorem faultInv_step {label : ThreadAct n} (h : FaultInv kend s) (hguard : ThreadGuard s label)
    (hstep : threadStep s label = some next) (hcalm : next.machine.mem.kfailed = false) :
    FaultInv kend next := by
  cases label with
  | store p t va byte => exact faultInv_store h hguard hstep
  | handle p t => exact faultInv_handle h hstep hcalm
  | resume p t => exact faultInv_resume h hstep
  | call x a => exact faultInv_call h hguard hstep hcalm

end

/-- All threads run in user mode, and no process has been killed. -/
structure ThreadStart {n : Nat} (s : Threaded n) : Prop where
  machine : ForkStart s.machine
  innocent : ∀ p, (s.machine.procs p).killed = false
  user : ∀ p t, s.phase p t = .user

theorem ThreadStart.inv {n : Nat} {s : Threaded n} (h : ThreadStart s) :
    FaultInv s.machine.mem.kend s where
  sound := h.machine.sound
  innocent := h.innocent
  live := fun p t hne => absurd (h.user p t) hne
  faulted := fun p t va hat => by simp [h.user p t] at hat
  handled := fun p t va hat => by simp [h.user p t] at hat
  apart := fun p t t' va va' _ hat => by simp [h.user p t] at hat

/-- As long as no two threads of a process are in the handler for one page, no
fault kills a process, and when a handler is done the page has `PTE_W` and not
`PTE_SH` until the process calls `cow_fork` again. -/
theorem cow_fault_kills_nobody {n : Nat} {start final : Threaded n} {labels : List (ThreadAct n)}
    (hstart : ThreadStart start) (hguard : Meets threadStep ThreadGuard start labels)
    (hcalm : ThreadKallocs start labels) (hrun : run threadStep start labels = some final) :
    (∀ p, (final.machine.procs p).killed = false) ∧
      ∀ p t va, final.phase p t = .handled va false →
        ∃ pte, final.machine.entry p (va / pgsize) = some pte ∧ pte.flags.w = true ∧
          pte.flags.sh = false := by
  have hinv := run_invariant_along (fun s label next => faultInv_step) hstart.inv hguard hcalm hrun
  refine ⟨hinv.innocent, fun p t va hat => ?_⟩
  obtain ⟨pte, hentry, hsh⟩ := (hinv.handled p t va hat).entry
  refine ⟨pte, hentry, ?_, hsh⟩
  rw [(hinv.sound.flagged p _ pte hentry).2, hsh]
  rfl

instance (a : Act) : Decidable (KeepsSpaces a) :=
  match a with
  | .fork => inferInstanceAs (Decidable True)
  | .cowFork => inferInstanceAs (Decidable True)
  | .exit => inferInstanceAs (Decidable True)
  | .wait => inferInstanceAs (Decidable False)
  | .cowWait => inferInstanceAs (Decidable True)
  | .exec _ => inferInstanceAs (Decidable False)
  | .sbrk n => inferInstanceAs (Decidable (0 ≤ n))
  | .load _ => inferInstanceAs (Decidable False)
  | .store _ _ => inferInstanceAs (Decidable False)

instance {n : Nat} (s : Threaded n) (label : ThreadAct n) : Decidable (ThreadGuard s label) :=
  match label with
  | .store p t va _ =>
    inferInstanceAs (Decidable (va < (s.machine.procs p).sz ∧
      (s.machine.entry p (va / pgsize)).any (fun pte => pte.flags.u) = true ∧
      ((s.machine.entry p (va / pgsize)).any (fun pte => pte.flags.w) = false →
        ∀ t', t' ≠ t → (s.phase p t').waitsFor (va / pgsize) = false)))
  | .handle _ _ => inferInstanceAs (Decidable True)
  | .resume _ _ => inferInstanceAs (Decidable True)
  | .call _ a => inferInstanceAs (Decidable (KeepsSpaces a))

def left : Fin 2 := ⟨0, Nat.zero_lt_two⟩
def right : Fin 2 := ⟨1, Nat.one_lt_two⟩

/-- Two threads write to the shared page, the second one after the first. -/
def oneByOne : List (ThreadAct 2) :=
  [.call slot0 .cowFork, .store slot1 left 7 65, .handle slot1 left, .resume slot1 left, .store
  slot1 left 7 65,
    .store slot1 right 8 66, .store slot0 left 7 67, .handle slot0 left]

/-- Two threads fault on the shared page before either is in the handler. -/
def bothFault : List (ThreadAct 2) :=
  [.call slot0 .cowFork, .store slot1 left 7 65, .store slot1 right 8 66, .handle slot1 left,
  .handle slot1 right]

theorem threadStart_userinit {n : Nat} {m : Mem} {init : Page} {s : Machine}
    (hnodup : m.freelist.Nodup) (hzero : ∀ q, m.counters q = 0)
    (hrange : ∀ q ∈ m.freelist, InRange m.kend q) (h : userinit m init = some s)
    (hcalm : s.mem.kfailed = false) : ThreadStart (n := n) ⟨s, fun _ _ => .user⟩ := by
  refine ⟨forkStart_userinit hnodup hzero hrange h hcalm, fun p => ?_, fun _ _ => rfl⟩
  obtain ⟨c, d', ⟨s1, d, m1, q, _, _, _, _, hself⟩, hothers, _⟩ := userinit_boots h
  by_cases hpc : p = c
  · simp [hpc, hself]
  · simp [hothers p hpc]

theorem cow_fault_kills_nobody_one_by_one :
    ∃ (start final : Threaded 2), ThreadStart start ∧ run threadStep start oneByOne = some final ∧
      final.phase slot0 left = .handled 7 false ∧ (∀ p, (final.machine.procs p).killed =
        false) := by
  obtain ⟨start, hboot, hcalm, hguard, hkallocs, final, hrun, hphase⟩ :
      ∃ start, userinit smallMem zeroPage = some start ∧ start.mem.kfailed = false ∧
        Meets threadStep ThreadGuard (⟨start, fun _ _ => .user⟩ : Threaded 2) oneByOne ∧
        Along threadStep (fun _ _ next => next.machine.mem.kfailed = false)
          (⟨start, fun _ _ => .user⟩ : Threaded 2) oneByOne ∧
        ∃ final, run threadStep (⟨start, fun _ _ => .user⟩ : Threaded 2) oneByOne = some final ∧
          final.phase slot0 left = .handled 7 false := by
    decide +kernel
  have hstart := threadStart_userinit (n := 2) List.nodup_range' (fun _ => rfl) smallMem_range hboot
    hcalm
  exact ⟨_, final, hstart, hrun, hphase, (cow_fault_kills_nobody hstart hguard hkallocs hrun).1⟩

/-- The thread that comes second finds no `PTE_SH` and its process is killed. -/
theorem second_fault_kills :
    ∃ (start final : Threaded 2), ThreadStart start ∧ run threadStep start bothFault = some final ∧
      final.machine.mem.kfailed = false ∧ (final.machine.procs slot1).killed = true := by
  obtain ⟨start, hboot, hcalm, final, hrun, hkallocs, hkilled⟩ :
      ∃ start, userinit smallMem zeroPage = some start ∧ start.mem.kfailed = false ∧
        ∃ final, run threadStep (⟨start, fun _ _ => .user⟩ : Threaded 2) bothFault = some final ∧
          final.machine.mem.kfailed = false ∧ (final.machine.procs slot1).killed = true := by
    decide +kernel
  exact ⟨_, final, threadStart_userinit List.nodup_range' (fun _ => rfl) smallMem_range hboot hcalm,
    hrun, hkallocs, hkilled⟩

end Xv6.Vm
