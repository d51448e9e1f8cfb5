import Mathlib.Algebra.GroupWithZero.Nat
import Mathlib.Algebra.Order.BigOperators.Group.List
import Mathlib.Algebra.Order.Group.Nat
import Xv6.Log.CrashAtomic

/-! The space that `begin_op` reserves in the log. It admits an operation when
`lh.n + (outstanding+1)*MAXOPBLOCKS` is at most `LOGSIZE`, while `log_write`
panics from `lh.n = log.size - 1` on, where `log.size` is `LOGSIZE` as well: the
header takes one of the blocks. -/
namespace Xv6.Log
open Transition

/-- The test of `log_write` for "too big a transaction". -/
def TooBig (s : State) : Prop :=
  logsize ≤ s.lh.length ∨ nlog - 1 ≤ s.lh.length

instance (s : State) : Decidable (TooBig s) :=
  inferInstanceAs (Decidable (_ ∨ _))

/-- The distinct blocks that an operation has logged. -/
def loggedBy (pending : List Write) (op : Nat) : Finset Nat :=
  ((pending.filter fun w => w.op = op).map Write.block).toFinset

/-- No operation logs more than `limit` distinct blocks. -/
def Within (limit : Nat) (s : State) : Act → Prop
  | .append t => ∀ entry ∈ s.op t, ∀ call ∈ s.calls t, ∀ b ∈ (s.bcache.buf call.1).blockno,
      (insert b (loggedBy s.pending entry.2)).card ≤ limit
  | _ => True

instance (limit : Nat) (s : State) (a : Act) : Decidable (Within limit s a) :=
  match a with
  -- over the option, not over the finitely many values of a block
  | .append _ => @Option.decidableForallMem _ _ (fun _ => Option.decidableForallMem _) _
  | .beginOp _ | .bread _ _ | .logWrite _ _ _ | .brelse _ _ | .endOp _ => isTrue trivial
  | .commit | .recover | .crash => isTrue trivial

theorem loggedBy_append (pending : List Write) (w : Write) (op : Nat) :
    loggedBy (pending ++ [w]) op =
      if w.op = op then insert w.block (loggedBy pending op) else loggedBy pending op := by
  ext b
  by_cases hop : w.op = op
  · simp [loggedBy, hop]
  · simp [loggedBy, hop]

/-- The blocks that an operation may still log, out of one less than what
`begin_op` reserves for it. -/
def reserve (pending : List Write) (entry : Tid × Nat) : Nat :=
  maxopblocks - 1 - (loggedBy pending entry.2).card

theorem reserve_le (pending : List Write) (entry : Tid × Nat) :
    reserve pending entry ≤ maxopblocks - 1 :=
  Nat.sub_le _ _

theorem sizes : maxopblocks = 10 ∧ logsize = 30 ∧ nlog = 30 := ⟨rfl, rfl, rfl⟩

/-- While operations run, the log and the reserves together leave a block of the
log free, and without an operation the log is empty. -/
structure Reserved (s : State) : Prop where
  room : s.pc = .running →
    s.lh.length + (s.ops.map (reserve s.pending)).sum + 2 ≤ nlog
  empty : s.pc = .running → s.ops = [] → s.lh = []

variable {s s' : State} {t : Tid}

theorem reserved_of_pc (h : s.pc ≠ .running) : Reserved s where
  room := fun hpc => absurd hpc h
  empty := fun hpc => absurd hpc h

theorem reserved_of_empty (hlh : s.lh = []) (hops : s.ops = []) : Reserved s where
  room := fun _ => by simp [hlh, hops, sizes]
  empty := fun _ _ => hlh

theorem sum_reserve_le (pending : List Write) (ops : List (Tid × Nat)) :
    (ops.map (reserve pending)).sum ≤ ops.length * (maxopblocks - 1) := by
  have hle := List.sum_le_card_nsmul (ops.map (reserve pending)) (maxopblocks - 1) (by
    intro x hx
    obtain ⟨entry, _, rfl⟩ := List.mem_map.mp hx
    exact reserve_le pending entry)
  simpa using hle

theorem reserved_beginOp (h : Reserved s) (hrunning : Running s) (hpc : s.pc = .running)
    (hcall : beginOp s t = some s') : Reserved s' := by
  simp only [beginOp, hrunning.committing, Bool.false_eq_true, if_false] at hcall
  split at hcall
  · cases hcall
  · rename_i hspace
    cases hcall
    refine ⟨fun _ => ?_, fun _ hops => by cases hops⟩
    have hsum := sum_reserve_le s.pending s.ops
    have hnew := reserve_le s.pending (t, s.nextOp)
    have houtstanding := hrunning.outstanding
    simp only [sizes] at hspace hsum hnew ⊢
    simp only [List.map_cons, List.sum_cons]
    rcases List.eq_nil_or_concat s.ops with hnil | ⟨rest, last, hrest⟩
    · -- the first operation finds an empty log
      have hlh := h.empty hpc hnil
      simp only [hlh, hnil, List.length_nil, List.map_nil, List.sum_nil]
      omega
    · have hpos : 1 ≤ s.ops.length := by simp [hrest]
      omega

theorem reserved_append (h : Reserved s) (hrunning : Running s) {entry : Tid × Nat}
    {i : BufId} {b : Nat} {data : Block} (hop : s.op t = some entry)
    (hwithin : (insert b (loggedBy s.pending entry.2)).card ≤ maxopblocks - 1) :
    Reserved (append s t entry.2 i b data) := by
  have hmem := (op_some hop).1
  have hmono : ∀ e : Tid × Nat, loggedBy s.pending e.2 ⊆
      loggedBy (s.pending ++ [⟨entry.2, b, data⟩]) e.2 := by
    intro e
    rw [loggedBy_append]
    split
    · exact Finset.subset_insert _ _
    · exact subset_rfl
  have hle : ∀ e : Tid × Nat, reserve (s.pending ++ [⟨entry.2, b, data⟩]) e ≤
      reserve s.pending e := by
    intro e
    have hcard := Finset.card_le_card (hmono e)
    simp only [reserve]
    omega
  refine ⟨fun hpc => ?_, fun hpc hops => ?_⟩
  · have hroom := h.room hpc
    simp only [sizes] at hroom
    simp only [append, sizes]
    split
    · have hsum : (s.ops.map (reserve (s.pending ++ [⟨entry.2, b, data⟩]))).sum ≤
          (s.ops.map (reserve s.pending)).sum := List.sum_le_sum fun e _ => hle e
      omega
    · -- a block that is new in the log is new to its operation
      rename_i hnew
      have hfresh : b ∉ loggedBy s.pending entry.2 := by
        intro hold
        simp only [loggedBy, List.mem_toFinset, List.mem_map, List.mem_filter] at hold
        obtain ⟨w, ⟨hw, _⟩, rfl⟩ := hold
        exact hnew (hrunning.logged w hw)
      have hstrict : reserve (s.pending ++ [⟨entry.2, b, data⟩]) entry <
          reserve s.pending entry := by
        rw [Finset.card_insert_of_notMem hfresh] at hwithin
        simp only [reserve, loggedBy_append, if_true, Finset.card_insert_of_notMem hfresh]
        omega
      have hsum : (s.ops.map (reserve (s.pending ++ [⟨entry.2, b, data⟩]))).sum <
          (s.ops.map (reserve s.pending)).sum :=
        List.sum_lt_sum _ _ (fun e _ => hle e) ⟨entry, hmem, hstrict⟩
      simp only [List.length_append, List.length_singleton]
      omega
  · have hnil : s.ops = [] := hops
    rw [hnil] at hmem
    cases hmem

theorem reserved_endOp (h : Reserved s) (hrunning : Running s) {entry : Tid × Nat}
    (hop : s.op t = some entry) (hcall : endOp s t entry = some s') : Reserved s' := by
  have hmem := (op_some hop).1
  have hlength := List.length_erase_of_mem hmem
  simp only [endOp, hrunning.committing, Bool.false_eq_true, if_false] at hcall
  split at hcall
  · split at hcall <;> cases hcall <;> exact reserved_of_pc (by simp)
  · rename_i hsome
    cases hcall
    refine ⟨fun hpc => ?_, fun _ hops => ?_⟩
    · have hroom := h.room hpc
      have hsum : ((s.ops.erase entry).map (reserve s.pending)).sum ≤
          (s.ops.map (reserve s.pending)).sum :=
        (List.erase_sublist.map _).sum_le_sum fun _ _ => Nat.zero_le _
      simp only [sizes] at hroom ⊢
      omega
    · have hnil : s.ops.erase entry = [] := hops
      rw [hnil, List.length_nil] at hlength
      exact absurd (by rw [hrunning.outstanding, ← hlength]) hsome

theorem reserved_commit (hphase : Phase s)
    (hstep : commitStep s = some s') : Reserved s' := by
  cases hpc : s.pc with
  | finish =>
    simp only [commitStep, hpc, Option.some.injEq] at hstep
    subst hstep
    simp only [Phase, hpc] at hphase
    exact reserved_of_empty hphase.2.2.2.2.2.1 hphase.2.1.ops
  | writeLog | installTrans =>
    simp only [commitStep, hpc] at hstep
    split at hstep <;> obtain ⟨result, _, rfl⟩ := Option.map_eq_some_iff.mp hstep <;>
      exact reserved_of_pc (by simp)
  | running | readHead | recoverTrans => simp [commitStep, hpc] at hstep

theorem reserved_recover (hphase : Phase s) (hstep : recoverStep s = some s') :
    Reserved s' := by
  cases hpc : s.pc with
  | readHead =>
    simp only [recoverStep, hpc] at hstep
    obtain ⟨result, _, rfl⟩ := Option.map_eq_some_iff.mp hstep
    exact reserved_of_pc (by simp)
  | recoverTrans tail =>
    simp only [Phase, hpc] at hphase
    simp only [recoverStep, hpc] at hstep
    split at hstep
    · obtain ⟨result, _, rfl⟩ := Option.map_eq_some_iff.mp hstep
      exact reserved_of_pc (by simp)
    · obtain ⟨result, _, rfl⟩ := Option.map_eq_some_iff.mp hstep
      exact reserved_of_empty rfl hphase.2.2.quiet.ops
  | running | writeLog | installTrans | finish => simp [recoverStep, hpc] at hstep

theorem reserved_step {a : Act} (h : Reserved s) (hphase : Phase s)
    (hwithin : Within (maxopblocks - 1) s a) (hstep : step s a = some s') : Reserved s' := by
  cases a with
  | beginOp t =>
    obtain ⟨hguard, hcall⟩ := Option.ite_none_right_eq_some.mp hstep
    by_cases hpc : s.pc = .running
    · exact reserved_beginOp h (hphase.of_running hpc) hpc hcall
    · refine reserved_of_pc ?_
      simp only [beginOp] at hcall
      split at hcall
      · cases hcall
      · split at hcall <;> cases hcall
        exact hpc
  | bread t b =>
    obtain ⟨_, hcall⟩ := Option.ite_none_right_eq_some.mp hstep
    obtain ⟨result, _, rfl⟩ := Option.map_eq_some_iff.mp hcall
    exact ⟨h.room, h.empty⟩
  | logWrite t i data =>
    obtain ⟨_, hcall⟩ := Option.ite_none_right_eq_some.mp hstep
    simp only [logWrite] at hcall
    split at hcall
    · cases hcall
    · split at hcall <;> cases hcall
      exact ⟨h.room, h.empty⟩
  | append t =>
    simp only [step] at hstep
    split at hstep
    · rename_i t' op i data hentry hcall
      obtain ⟨b, hb, rfl⟩ := Option.map_eq_some_iff.mp hstep
      have hrunning := (hphase.of_op (t := t) (by rw [hentry]; rfl)).2
      exact reserved_append h hrunning hentry (hwithin _ hentry _ hcall b hb)
    · cases hstep
  | brelse t i =>
    obtain ⟨_, rfl⟩ := taken hstep
    exact ⟨h.room, h.empty⟩
  | endOp t =>
    simp only [step] at hstep
    split at hstep
    · rename_i entry hentry
      obtain ⟨_, hend⟩ := Option.ite_none_right_eq_some.mp hstep
      exact reserved_endOp h (hphase.of_op (t := t) (by rw [hentry]; rfl)).2 hentry hend
    · cases hstep
  | commit => exact reserved_commit hphase hstep
  | recover => exact reserved_recover hphase hstep
  | crash =>
    cases hstep
    exact reserved_of_pc (by simp [crash])

/-- Operations of at most `MAXOPBLOCKS - 1` blocks never find the log full. -/
theorem log_reservation_suffices {disk : Disk}
    {labels : List Act} {final : State} (hdisk : headOf (disk logstart) = [])
    (hmeets : Meets step (Within (maxopblocks - 1)) (boot disk) labels)
    (hrun : run step (boot disk) labels = some final) {t : Tid}
    (hop : (final.op t).isSome = true) : ¬ TooBig final := by
  have hkeep : ∀ (s : State) a next, Inv s ∧ Reserved s → Within (maxopblocks - 1) s a →
      step s a = some next → Inv next ∧ Reserved next := by
    intro s a next h hwithin hstep
    exact ⟨(inv_step h.1 hstep).1, reserved_step h.2 h.1.phase hwithin hstep⟩
  have hboot : Inv (boot disk) ∧ Reserved (boot disk) :=
    ⟨inv_boot hdisk, reserved_of_pc (by simp [boot])⟩
  obtain ⟨hinv, hreserved⟩ := run_invariant hkeep hboot hmeets hrun
  have hroom := hreserved.room (hinv.phase.of_op hop).1
  simp only [TooBig, sizes] at hroom ⊢
  omega

/-- A call of `log_write` between `bread` and `brelse` on the buffer's block. -/
def logOne (t : Tid) (i : BufId) (b : Nat) : List Act :=
  [.bread t b, .logWrite t i fun _ => 0, .append t, .brelse t i]

/-- Three operations begin and log different blocks in turn, a number of blocks
each, until there is a number of blocks in the log. -/
def threeOps (each blocks : Nat) : List Act :=
  .recover :: .recover :: .beginOp 0 :: .beginOp 1 :: .beginOp 2 ::
    (((List.finRange nbuf).drop 1).take blocks).flatMap fun i =>
      logOne ((i.val - 1) / each) i (39 + i.val)

theorem log_reservation_suffices_nine_each :
    ∃ final, run step (boot fun _ _ => 0) (threeOps 9 27) = some final ∧
      final.lh.length = 27 ∧ ¬ TooBig final := by
  obtain ⟨final, hrun, hlength, hop⟩ : ∃ final, run step (boot fun _ _ => 0)
      (threeOps 9 27) = some final ∧ final.lh.length = 27 ∧ (final.op 2).isSome := by
    decide +kernel
  exact ⟨final, hrun, hlength,
    log_reservation_suffices rfl (by decide +kernel) hrun hop⟩

/-- Three operations of ten blocks each: the last block of the third one finds
29 blocks in the log. -/
theorem log_full_within_reservation :
    Meets step (Within maxopblocks) (boot fun _ _ => 0)
        (threeOps 10 29 ++ [.bread 2 69]) ∧
      ∃ final, run step (boot fun _ _ => 0) (threeOps 10 29 ++ [.bread 2 69]) =
          some final ∧
        ∃ entry i, final.op 2 = some entry ∧ (final.bcache.buf i).busy = some 2 ∧
          (final.bcache.buf i).blockno = some 69 ∧ Home 69 ∧
          (insert 69 (loggedBy final.pending entry.2)).card ≤ maxopblocks ∧ TooBig final := by
  refine ⟨by decide +kernel, ?_⟩
  obtain ⟨final, hrun, hop, ⟨i, hbusy, hblock⟩, hcard, hbig⟩ :
      ∃ final, run step (boot fun _ _ => 0) (threeOps 10 29 ++ [.bread 2 69]) =
          some final ∧ final.op 2 = some (2, 2) ∧
        (∃ i, (final.bcache.buf i).busy = some 2 ∧ (final.bcache.buf i).blockno = some 69) ∧
        (insert 69 (loggedBy final.pending 2)).card ≤ maxopblocks ∧ TooBig final := by
    decide +kernel
  exact ⟨final, hrun, (2, 2), i, hop, hbusy, hblock, by decide, hcard, hbig⟩

end Xv6.Log
