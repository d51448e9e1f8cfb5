import Xv6.Basic
import Xv6.Lib.Transition

/-! The array `cpus` under the schedulers. `%gs` points to the `cpu` field of the CPU's
record, and `cpu`, `proc` and `thread` lie at the offsets 0, 4 and 8 from there. The record
ends after the first two, so `thread` is the first word of the next record, where `id` is.
Addresses are counted in words of four bytes from the start of `cpus`. -/
namespace Xv6.CpuVariables
open Function Transition

abbrev Word := UInt32

def maxCpus : Nat := 8

/-! The fields of `struct cpu`: `id` with its padding, `scheduler`, `ts` (26 words), `gdt`
(14 words), `started`, `ncli`, `intena`, `cpu` and `proc`. -/

def schedulerField : Nat := 1

def esp0Field : Nat := 3

def ss0Field : Nat := 4

def tssField : Nat := 40

def ncliField : Nat := 43

def intenaField : Nat := 44

def cpuField : Nat := 45

def cpuWords : Nat := 47

def record (c : Nat) : Nat := c * cpuWords

def gs (c : Nat) : Nat := record c + cpuField

/-- `proc` is `%gs:4` and `thread` is `%gs:8`. -/
def procVar (c : Nat) : Nat := gs c + 1

def threadVar (c : Nat) : Nat := gs c + 2

/-- Before `seginit`, in the loop of `scheduler`, or after its `swtch` to a thread. -/
inductive Phase where
  | off
  | scheduler
  | thread
deriving DecidableEq

structure State (n : Nat) where
  word : Nat → Word
  phase : Fin n → Phase
  ticks : Nat

variable {n : Nat}

def State.store (s : State n) (a : Nat) (value : Word) : State n :=
  { s with word := update s.word a value }

def State.id (s : State n) (i : Nat) : Nat := (s.word (record i)).toNat % 256

/-- `cpus[ncpu].id = ncpu`, on a word that is still 0. -/
def setId (word : Nat → Word) (i : Nat) : Nat → Word :=
  update word (record i) (UInt32.ofNat i)

/-- After `mpinit` has found `n` processors. -/
def mpinit (n : Nat) : State n where
  word := (List.range n).foldl setId fun _ => 0
  phase := fun _ => .off
  ticks := 0

section

-- the address of `cpus`
variable (base : Word)

def State.cpu (s : State n) (c : Nat) : Nat := (s.word (gs c) - base).toNat / 4

def State.storeField (s : State n) (c field : Nat) (value : Word) : State n :=
  s.store (s.cpu base c + field) value

/-- `seginit`: `cpu = c; proc = 0`. The descriptors before them do not matter here. -/
def seginit (s : State n) (c : Fin n) : State n :=
  let started := (s.store (gs c) (base + 4 * UInt32.ofNat (record c))).store (procVar c) 0
  { started with phase := update s.phase c .scheduler }

def pushcli (s : State n) (c : Nat) (eflags : Word) : State n :=
  let ncli := s.word (s.cpu base c + ncliField)
  let counted := s.storeField base c ncliField (ncli + 1)
  if ncli = 0 then counted.storeField base c intenaField eflags else counted

def popcli (s : State n) (c : Nat) : State n :=
  s.storeField base c ncliField (s.word (s.cpu base c + ncliField) - 1)

/-- What `switchuvm` stores: the descriptor of the task state, `ss0` and `esp0`. -/
def switchuvm (s : State n) (c : Nat) (eflags low high esp0 : Word) : State n :=
  let locked := pushcli base s c eflags
  let tss := (locked.storeField base c tssField low).storeField base c (tssField + 1) high
  popcli base ((tss.storeField base c ss0Field 16).storeField base c esp0Field esp0) c

/-- `proc = p; thread = t; switchuvm(p); .. swtch(&cpu->scheduler, t->context)`. -/
def pick (s : State n) (c : Fin n) (p t eflags low high esp0 context : Word) : State n :=
  let chosen := (s.store (procVar c) p).store (threadVar c) t
  let switched := (switchuvm base chosen c eflags low high esp0).storeField base c
    schedulerField context
  { switched with phase := update s.phase c .thread }

def back (s : State n) (c : Fin n) : State n :=
  { s.store (threadVar c) 0 with phase := update s.phase c .scheduler }

def timer (s : State n) (c : Fin n) : State n :=
  if (s.word (s.cpu base c)).toNat % 256 = 0 then { s with ticks := s.ticks + 1 } else s

inductive Cmd where
  | seginit
  | pick (p t eflags low high esp0 context : Word)
  | back
  /-- The end of the inner loop of `scheduler`: `proc = 0`. -/
  | procDone
  | pushcli (eflags : Word)
  | popcli
  /-- `sched` puts back `cpu->intena`. -/
  | intena (value : Word)
  | timer

structure Act (n : Nat) where
  cpu : Fin n
  cmd : Cmd

def step (s : State n) (a : Act n) : Option (State n) :=
  match a.cmd with
  | .seginit => if s.phase a.cpu = .off then some (seginit base s a.cpu) else none
  | .pick p t eflags low high esp0 context =>
    if s.phase a.cpu = .scheduler then
      some (pick base s a.cpu p t eflags low high esp0 context)
    else none
  | .back => if s.phase a.cpu = .thread then some (back s a.cpu) else none
  | .procDone => if s.phase a.cpu = .scheduler then some (s.store (procVar a.cpu) 0) else none
  | .pushcli eflags => if s.phase a.cpu = .off then none else some (pushcli base s a.cpu eflags)
  | .popcli => if s.phase a.cpu = .off then none else some (popcli base s a.cpu)
  | .intena value =>
    if s.phase a.cpu = .off then none
    else some (s.storeField base a.cpu intenaField value)
  | .timer => if s.phase a.cpu = .off then none else some (timer base s a.cpu)

end

/-- Every CPU is known by its index. -/
def Identified (s : State n) : Prop :=
  ∀ i, i < n → s.id i = i

def Cmd.threadStore : Cmd → Option Word
  | .pick _ t _ _ _ _ _ => some t
  | .back => some 0
  | _ => none

/-- `thread` is stored by the last CPU only, or with the number of the next CPU as the
lowest byte. -/
def ThreadSafe (_ : State n) (a : Act n) : Prop :=
  ∀ t, a.cmd.threadStore = some t → a.cpu.val + 1 < n → t.toNat % 256 = a.cpu.val + 1

/-- The records keep their `id` and their `cpu`, as far as the latter is set. -/
structure Inv (base : Word) (s : State n) : Prop where
  ids : Identified s
  self : ∀ c : Fin n, s.phase c ≠ .off → s.word (gs c) = base + 4 * UInt32.ofNat (record c)

variable {base : Word} {s s' : State n} {c : Nat}

theorem record_lt (hn : n ≤ maxCpus) (c : Fin n) : record c < 376 := by
  have hlt := c.isLt
  simp only [record, cpuWords, maxCpus] at *
  omega

theorem toNat_ofNat_of_small {k : Nat} (hk : k < 376) : (UInt32.ofNat k).toNat = k :=
  UInt32.toNat_ofNat_of_lt' (Nat.lt_trans hk (by decide))

theorem cpu_eq (hn : n ≤ maxCpus) (hinv : Inv base s) (c : Fin n) (hc : s.phase c ≠ .off) :
    s.cpu base c = record c := by
  have hlt := record_lt hn c
  have hoffset : base + 4 * UInt32.ofNat (record c) - base = 4 * UInt32.ofNat (record c) := by
    rw [UInt32.add_comm, UInt32.add_sub_cancel]
  rw [State.cpu, hinv.self c hc, hoffset, UInt32.toNat_mul, toNat_ofNat_of_small hlt]
  simp only [UInt32.reduceToNat]
  omega

/-- A step of CPU `c` inside its own record: the words that the invariant is about stay. -/
structure Keeps (base : Word) (c : Nat) (s s' : State n) : Prop where
  id : ∀ i, s'.word (record i) = s.word (record i)
  gs : ∀ d, s'.word (gs d) = s.word (gs d)
  phase : s'.phase = s.phase

theorem Keeps.trans {s'' : State n} (h : Keeps base c s s') (h' : Keeps base c s' s'') :
    Keeps base c s s'' :=
  ⟨fun i => (h'.id i).trans (h.id i), fun d => (h'.gs d).trans (h.gs d),
    h'.phase.trans h.phase⟩

theorem Keeps.cpu (h : Keeps base c s s') (hcpu : s.cpu base c = record c) :
    s'.cpu base c = record c := by
  rw [← hcpu, State.cpu, State.cpu, h.gs]

def Inner (field : Nat) : Prop := 1 ≤ field ∧ field < cpuWords ∧ field ≠ cpuField

instance (field : Nat) : Decidable (Inner field) := inferInstanceAs (Decidable (_ ∧ _))

theorem Keeps.store {field : Nat} (hfield : Inner field) (value : Word) :
    Keeps base c s (s.store (record c + field) value) := by
  obtain ⟨hpos, hlt, hne⟩ := hfield
  refine ⟨fun i => update_of_ne ?_ .., fun d => update_of_ne ?_ .., rfl⟩
  · simp only [record, cpuWords] at *
    omega
  · simp only [CpuVariables.gs, record, cpuWords, cpuField] at *
    omega

theorem Keeps.storeField {field : Nat} (hfield : Inner field) (hcpu : s.cpu base c = record c)
    (value : Word) : Keeps base c s (s.storeField base c field value) := by
  rw [State.storeField, hcpu]
  exact .store hfield value

theorem keeps_pushcli (hcpu : s.cpu base c = record c) (eflags : Word) :
    Keeps base c s (pushcli base s c eflags) := by
  have hinner : Inner ncliField := by decide
  unfold pushcli
  dsimp only
  split
  · have hcounted := Keeps.storeField hinner hcpu (s.word (s.cpu base c + ncliField) + 1)
    exact hcounted.trans (.storeField (by decide) (hcounted.cpu hcpu) eflags)
  · exact .storeField hinner hcpu _

theorem keeps_popcli (hcpu : s.cpu base c = record c) : Keeps base c s (popcli base s c) :=
  .storeField (by decide) hcpu _

theorem keeps_switchuvm (hcpu : s.cpu base c = record c) (eflags low high esp0 : Word) :
    Keeps base c s (switchuvm base s c eflags low high esp0) := by
  have hlocked := keeps_pushcli hcpu eflags
  have hlow := hlocked.trans (.storeField (by decide : Inner tssField) (hlocked.cpu hcpu) low)
  have hhigh := hlow.trans (.storeField (by decide : Inner (tssField + 1)) (hlow.cpu hcpu) high)
  have hss0 := hhigh.trans (.storeField (by decide : Inner ss0Field) (hhigh.cpu hcpu) 16)
  have hesp0 := hss0.trans (.storeField (by decide : Inner esp0Field) (hss0.cpu hcpu) esp0)
  exact hesp0.trans (keeps_popcli (hesp0.cpu hcpu))

theorem threadVar_eq (c : Nat) : threadVar c = record (c + 1) := by
  simp only [threadVar, gs, record, cpuWords, cpuField]
  omega

theorem record_injective {i j : Nat} (h : record i = record j) : i = j := by
  simp only [record, cpuWords] at h
  omega

theorem gs_ne_record (i j : Nat) : gs i ≠ record j := by
  simp only [gs, record, cpuWords, cpuField]
  omega

theorem gs_injective {i j : Nat} (h : gs i = gs j) : i = j := by
  simp only [gs, record, cpuWords] at h
  omega

theorem inv_keeps (hinv : Inv base s) (h : Keeps base c s s') : Inv base s' where
  ids := fun i hi => by
    rw [State.id, h.id]
    exact hinv.ids i hi
  self := fun d hd => by
    rw [h.gs]
    exact hinv.self d (by rwa [h.phase] at hd)

theorem inv_of_word (hinv : Inv base s) (hword : s'.word = s.word)
    (hphase : ∀ d, s'.phase d ≠ .off → s.phase d ≠ .off) : Inv base s' where
  ids := fun i hi => by
    rw [State.id, hword]
    exact hinv.ids i hi
  self := fun d hd => by
    rw [hword]
    exact hinv.self d (hphase d hd)

theorem phase_update {c : Fin n} {phase : Phase} (hc : s.phase c ≠ .off) (d : Fin n)
    (hd : update s.phase c phase d ≠ .off) : s.phase d ≠ .off := by
  by_cases hdc : d = c
  · rwa [hdc]
  · rwa [update_of_ne hdc] at hd

theorem inv_procVar (hinv : Inv base s) (value : Word) :
    Inv base (s.store (procVar c) value) := by
  have haddress : procVar c = record c + (cpuField + 1) := rfl
  rw [haddress]
  exact inv_keeps hinv (.store (by decide) value)

theorem inv_threadVar (hinv : Inv base s) {value : Word}
    (hvalue : c + 1 < n → value.toNat % 256 = c + 1) :
    Inv base (s.store (threadVar c) value) where
  ids := fun i hi => by
    simp only [State.id, State.store, threadVar_eq]
    by_cases hic : i = c + 1
    · rw [hic, update_self]
      exact hvalue (by omega)
    · rw [update_of_ne fun h => hic (record_injective h)]
      exact hinv.ids i hi
  self := fun d hd => by
    simp only [State.store, threadVar_eq]
    rw [update_of_ne (gs_ne_record d (c + 1))]
    exact hinv.self d hd

theorem inv_seginit (hinv : Inv base s) (c : Fin n) : Inv base (seginit base s c) where
  ids := fun i hi => by
    have hproc : record i ≠ procVar c := by
      simp only [procVar, gs, record, cpuWords, cpuField]
      omega
    simp only [State.id, seginit, State.store]
    rw [update_of_ne hproc, update_of_ne (gs_ne_record c i).symm]
    exact hinv.ids i hi
  self := fun d hd => by
    have hproc : gs d ≠ procVar c := by
      simp only [procVar, gs, record, cpuWords]
      omega
    simp only [seginit, State.store] at hd ⊢
    rw [update_of_ne hproc]
    by_cases hdc : d = c
    · rw [hdc, update_self]
    · rw [update_of_ne fun h => hdc (Fin.ext (gs_injective h))]
      exact hinv.self d (by rwa [update_of_ne hdc] at hd)

theorem inv_pick (hn : n ≤ maxCpus) (hinv : Inv base s) {c : Fin n} (hc : s.phase c ≠ .off)
    {p t eflags low high esp0 context : Word}
    (ht : c.val + 1 < n → t.toNat % 256 = c.val + 1) :
    Inv base (pick base s c p t eflags low high esp0 context) := by
  have hthread := inv_threadVar (inv_procVar (c := c) hinv p) ht
  have hcpu := cpu_eq hn hthread c hc
  have hswitched := keeps_switchuvm hcpu eflags low high esp0
  have hall := hswitched.trans
    (.storeField (by decide : Inner schedulerField) (hswitched.cpu hcpu) context)
  refine inv_of_word (inv_keeps hthread hall) rfl fun d hd => ?_
  rw [hall.phase]
  exact phase_update hc d hd

theorem inv_step (hn : n ≤ maxCpus) (hinv : Inv base s) {a : Act n} (hsafe : ThreadSafe s a)
    (hstep : step base s a = some s') : Inv base s' := by
  obtain ⟨c, cmd⟩ := a
  cases cmd with
  | seginit =>
    obtain ⟨-, rfl⟩ := taken hstep
    exact inv_seginit hinv c
  | pick p t eflags low high esp0 context =>
    obtain ⟨hc, rfl⟩ := taken hstep
    simp only at hc
    exact inv_pick hn hinv (by simp [hc]) (hsafe t rfl)
  | back =>
    obtain ⟨hc, rfl⟩ := taken hstep
    simp only at hc
    exact inv_of_word (inv_threadVar hinv (hsafe 0 rfl)) rfl (phase_update (by simp [hc]))
  | procDone =>
    obtain ⟨-, rfl⟩ := taken hstep
    exact inv_procVar hinv 0
  | pushcli eflags =>
    obtain ⟨hc, hresult⟩ := Option.ite_none_left_eq_some.mp hstep
    cases hresult
    exact inv_keeps hinv (keeps_pushcli (cpu_eq hn hinv c hc) eflags)
  | popcli =>
    obtain ⟨hc, hresult⟩ := Option.ite_none_left_eq_some.mp hstep
    cases hresult
    exact inv_keeps hinv (keeps_popcli (cpu_eq hn hinv c hc))
  | intena value =>
    obtain ⟨hc, hresult⟩ := Option.ite_none_left_eq_some.mp hstep
    cases hresult
    exact inv_keeps hinv (.storeField (by decide : Inner intenaField) (cpu_eq hn hinv c hc) value)
  | timer =>
    obtain ⟨-, hresult⟩ := Option.ite_none_left_eq_some.mp hstep
    cases hresult
    unfold timer
    split
    · exact ⟨hinv.ids, hinv.self⟩
    · exact hinv

theorem foldl_setId (n i : Nat) :
    (List.range n).foldl setId (fun _ => 0) (record i) = if i < n then UInt32.ofNat i else 0 := by
  induction n with
  | zero => rfl
  | succ n ih =>
    rw [List.range_succ, List.foldl_append, List.foldl_cons, List.foldl_nil, setId]
    by_cases hi : i = n
    · rw [hi, update_self, if_pos (Nat.lt_succ_self n)]
    · rw [update_of_ne fun h => hi (record_injective h), ih]
      simp only [show i < n + 1 ↔ i < n by omega]

theorem inv_mpinit (hn : n ≤ maxCpus) : Inv base (mpinit n) where
  ids := fun i hi => by
    have hmax : maxCpus = 8 := rfl
    have hword : (mpinit n).word (record i) = UInt32.ofNat i :=
      (foldl_setId n i).trans (if_pos hi)
    rw [State.id, hword, toNat_ofNat_of_small (by omega)]
    omega
  self := fun c hc => absurd rfl hc

theorem timer_ticks (hn : n ≤ maxCpus) (hinv : Inv base s) (c : Fin n) (hc : s.phase c ≠ .off) :
    (timer base s c).ticks = s.ticks + 1 ↔ c.val = 0 := by
  have hid : (s.word (record c)).toNat % 256 = c := hinv.ids c c.isLt
  rw [timer, cpu_eq hn hinv c hc, hid]
  split
  · rename_i hzero
    simp [hzero]
  · rename_i hzero
    simp [hzero]

/-- In every run of the schedulers of up to `NCPU` CPUs in which only the last CPU stores
to `thread`, or the store happens to be right, each CPU keeps its number and timer
interrupts are counted on CPU 0 only. -/
theorem cpu_identities (hn : n ≤ maxCpus) (base : Word) {labels : List (Act n)} {final : State n}
    (hmeets : Meets (step base) ThreadSafe (mpinit n) labels)
    (hrun : run (step base) (mpinit n) labels = some final) :
    Identified final ∧ ∀ c, final.phase c ≠ .off →
      ((timer base final c).ticks = final.ticks + 1 ↔ c.val = 0) := by
  have hinv : Inv base final :=
    run_invariant (fun _ _ _ h hsafe hstep => inv_step hn h hsafe hstep) (inv_mpinit hn) hmeets
      hrun
  exact ⟨hinv.ids, timer_ticks hn hinv⟩

def firstCpu : Fin 2 := ⟨0, Nat.succ_pos 1⟩

def secondCpu : Fin 2 := ⟨1, Nat.lt_succ_self 1⟩

def bothStart : List (Act 2) := [⟨firstCpu, .seginit⟩, ⟨secondCpu, .seginit⟩]

/-- A CPU schedules a thread at 0x8011366c and comes back. -/
def schedules (c : Fin 2) : List (Act 2) :=
  [⟨c, .pick 2148611584 2148611692 0 0 0 0 0⟩, ⟨c, .back⟩, ⟨c, .procDone⟩]

theorem cpu_identities_second :
    ∃ final, run (step 2148605952) (mpinit 2) (bothStart ++ schedules secondCpu) = some final ∧
      Identified final ∧ ∀ c, final.phase c ≠ .off →
        ((timer 2148605952 final c).ticks = final.ticks + 1 ↔ c.val = 0) := by
  have hrun : (run (step 2148605952) (mpinit 2) (bothStart ++ schedules secondCpu)).isSome := by
    decide +kernel
  obtain ⟨final, hrun⟩ := Option.isSome_iff_exists.mp hrun
  have hsafe : ∀ a ∈ bothStart ++ schedules secondCpu, ∀ s : State 2, ThreadSafe s a := by
    intro a ha s t ht hlt
    simp only [bothStart, schedules, List.cons_append, List.nil_append, List.mem_cons,
      List.not_mem_nil, or_false] at ha
    rcases ha with rfl | rfl | rfl | rfl | rfl
    · cases ht
    · cases ht
    · exact absurd hlt (by decide)
    · exact absurd hlt (by decide)
    · cases ht
  exact ⟨final, hrun, cpu_identities (by decide) 2148605952 (meets_of_forall hsafe _) hrun⟩

/-- After the first CPU has scheduled one thread, the second CPU has the number 0, and
both count ticks. -/
theorem second_cpu_loses_id :
    ∃ final, run (step 2148605952) (mpinit 2) (bothStart ++ schedules firstCpu) = some final ∧
      final.id 1 = 0 ∧ (timer 2148605952 final firstCpu).ticks = final.ticks + 1 ∧
      (timer 2148605952 final secondCpu).ticks = final.ticks + 1 := by
  decide +kernel

end Xv6.CpuVariables
