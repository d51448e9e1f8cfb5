import Mathlib.Logic.Function.Iterate
import Mathlib.Tactic.Common

/-! `mpconfig` and `mpinit` over a configuration table of any contents. The
reads of the table and the writes to `cpus` are recorded. -/
namespace Xv6.Mp

def ncpuMax : Nat := 8

def confSize : Nat := 44

/-- The bytes from the beginning of the table on; it may end before them. -/
abbrev Memory := Nat → UInt8

def confLength (mem : Memory) : Nat := (mem 4).toNat + 256 * (mem 5).toNat

def sum (mem : Memory) (len : Nat) : UInt8 :=
  (List.range len).foldl (fun sum i => sum + mem i) 0

/-- The tests of `mpconfig`: signature, version and checksum. -/
def mpconfig (mem : Memory) : Bool :=
  [mem 0, mem 1, mem 2, mem 3] = [80, 67, 77, 80] && (mem 6 = 1 || mem 6 = 4) &&
    sum mem (confLength mem) = 0

/-- `MPPROC`, `MPIOAPIC`, and the entries of which only the type is read. -/
inductive Kind where
  | proc
  | ioapic
  | other
deriving DecidableEq

def kind (type : UInt8) : Option Kind :=
  if type = 0 then some .proc
  else if type = 2 then some .ioapic
  else if type = 1 ∨ type = 3 ∨ type = 4 then some .other
  else none

def Kind.size : Kind → Nat
  | .proc => 20
  | .ioapic | .other => 8

/-- The bytes of an entry that `mpinit` reads: `proc` has its `apicid` at 1 and
its `flags` at 3, `ioapic` its `apicno` at 1. -/
def Kind.fields : Kind → List Nat
  | .proc => [0, 1, 3]
  | .ioapic => [0, 1]
  | .other => [0]

structure State where
  p : Nat
  ismp : Bool
  ncpu : Nat
  bcpu : Nat
  ioapicid : UInt8
  /-- All reads so far were inside the table, and all writes inside `cpus`. -/
  inTable : Bool
  inCpus : Bool

/-- The reads of an entry of a table of `e` bytes. -/
def State.pass (s : State) (e : Nat) (k : Kind) : State :=
  { s with p := s.p + k.size, inTable := s.inTable && k.fields.all (s.p + · < e) }

/-- A turn of the loop. An entry of an unknown type is not passed. -/
def turn (mem : Memory) (e : Nat) (s : State) : State :=
  match kind (mem s.p) with
  | some .proc =>
    { s.pass e .proc with
      ismp := s.ismp && s.ncpu = (mem (s.p + 1)).toNat
      bcpu := if mem (s.p + 3) &&& 2 ≠ 0 then s.ncpu else s.bcpu
      inCpus := s.inCpus && s.ncpu < ncpuMax
      ncpu := s.ncpu + 1 }
  | some .ioapic => { s.pass e .ioapic with ioapicid := mem (s.p + 1) }
  | some .other => s.pass e .other
  | none => { s with ismp := false }

def loop (mem : Memory) (e : Nat) : Nat → State → Option State
  | 0, _ => none
  | fuel + 1, s => if s.p < e then loop mem e fuel (turn mem e s) else some s

def finish (s : State) : State := if s.ismp then s else { s with ncpu := 1, ioapicid := 0 }

def start : State := ⟨confSize, true, 0, 0, 0, true, true⟩

/-- `mpinit` with a table that `mpconfig` has returned; `none` while the loop is
not at its end. -/
def mpinit (mem : Memory) (fuel : Nat) : Option State :=
  (loop mem (confLength mem) fuel start).map finish

/-- `mpinit` returns, after reads inside the table and writes inside `cpus`, with
a number of CPUs that can be. -/
def Safe (mem : Memory) : Prop :=
  ∃ fuel s, mpinit mem fuel = some s ∧ s.inTable = true ∧ s.inCpus = true ∧ 1 ≤ s.ncpu ∧
    s.ncpu ≤ ncpuMax

/-- From `p` on there are entries of these kinds up to the end of the table. -/
def Entries (mem : Memory) (e : Nat) : Nat → List Kind → Prop
  | p, [] => e ≤ p
  | p, k :: kinds => p < e ∧ kind (mem p) = some k ∧ Entries mem e (p + k.size) kinds

def Whole (e : Nat) : Nat → List Kind → Prop
  | _, [] => True
  | p, k :: kinds => (∀ i ∈ k.fields, p + i < e) ∧ Whole e (p + k.size) kinds

variable {mem : Memory} {e fuel : Nat} {s s' : State} {kinds : List Kind}

theorem entries_of_loop (h : loop mem e fuel s = some s') :
    ∃ kinds : List Kind, Entries mem e s.p kinds ∧ (turn mem e)^[kinds.length] s = s' := by
  induction fuel generalizing s with
  | zero => cases h
  | succ fuel ih =>
    rw [loop] at h
    split at h
    · rename_i hp
      obtain ⟨kinds, hkinds, hturns⟩ := ih h
      cases hk : kind (mem s.p) with
      | none =>
        -- the loop stays where it is
        have hstay : (turn mem e s).p = s.p := by simp [turn, hk]
        rw [hstay] at hkinds
        cases kinds with
        | nil => exact absurd hp (Nat.not_lt.mpr hkinds)
        | cons k kinds => cases hk.symm.trans hkinds.2.1
      | some k =>
        have hp' : (turn mem e s).p = s.p + k.size := by cases k <;> simp [turn, hk, State.pass]
        rw [hp'] at hkinds
        exact ⟨k :: kinds, ⟨hp, hk, hkinds⟩, hturns⟩
    · rename_i hp
      cases h
      exact ⟨[], Nat.le_of_not_lt hp, rfl⟩

theorem turns_entries (h : Entries mem e s.p kinds)
    (hs' : (turn mem e)^[kinds.length] s = s') :
    loop mem e (kinds.length + 1) s = some s' ∧ s'.ncpu = s.ncpu + kinds.count .proc ∧
      (s'.inTable = true ↔ s.inTable = true ∧ Whole e s.p kinds) ∧
      (s'.inCpus = true ↔ s.inCpus = true ∧ (kinds.count .proc = 0 ∨ s'.ncpu ≤ ncpuMax)) ∧
      (kinds.count .proc = 0 → s'.ismp = s.ismp) := by
  induction kinds generalizing s with
  | nil =>
    cases hs'
    simp [loop, Nat.not_lt.mpr h, Whole]
  | cons k kinds ih =>
    obtain ⟨hp, hk, hrest⟩ := h
    have hp' : (turn mem e s).p = s.p + k.size := by cases k <;> simp [turn, hk, State.pass]
    rw [← hp'] at hrest
    obtain ⟨hloop, hncpu, htable, hcpus, hismp⟩ := ih hrest hs'
    rw [hp'] at htable
    rw [loop, if_pos hp]
    refine ⟨hloop, ?_, ?_, ?_, ?_⟩
    · cases k <;> simp [turn, hk, State.pass] at hncpu ⊢ <;> omega
    · rw [htable, Whole]
      cases k <;> simp [turn, hk, State.pass, and_assoc]
    · rw [hcpus]
      cases k <;> simp [turn, hk, State.pass] at hncpu ⊢
      rw [and_assoc]
      exact and_congr_right fun _ => by omega
    · cases k <;> simp [turn, hk, State.pass] at hismp ⊢
      all_goals exact hismp

/-- `mpinit` is safe exactly for the tables that consist of whole entries of
known types, with at least one and at most `NCPU` processors. -/
theorem mpinit_safe_iff (mem : Memory) :
    Safe mem ↔ ∃ kinds, Entries mem (confLength mem) confSize kinds ∧
      Whole (confLength mem) confSize kinds ∧
      1 ≤ kinds.count .proc ∧ kinds.count .proc ≤ ncpuMax := by
  constructor
  · rintro ⟨fuel, s, hinit, htable, hcpus, hlo, hhi⟩
    obtain ⟨s, hloop, rfl⟩ := Option.map_eq_some_iff.mp hinit
    have hfinish : (finish s).inTable = s.inTable ∧ (finish s).inCpus = s.inCpus := by
      unfold finish
      split <;> exact ⟨rfl, rfl⟩
    obtain ⟨kinds, hkinds, hturns⟩ := entries_of_loop hloop
    obtain ⟨-, hncpu, htable', hcpus', hismp⟩ := turns_entries hkinds hturns
    rw [hfinish.1] at htable
    rw [hfinish.2] at hcpus
    have hsome : kinds.count .proc ≠ 0 := fun hzero => by
      simp [finish, hismp hzero, hncpu, hzero, start] at hlo
    have hmany := (hcpus'.mp hcpus).2.resolve_left hsome
    simp only [hncpu, start, Nat.zero_add] at hmany
    exact ⟨kinds, hkinds, (htable'.mp htable).2, by omega, hmany⟩
  · rintro ⟨kinds, hkinds, hwhole, hlo, hhi⟩
    obtain ⟨hloop, hncpu, htable, hcpus, -⟩ := turns_entries (s := start) hkinds rfl
    simp only [start, Nat.zero_add] at hncpu
    rw [← hncpu] at hlo hhi
    refine ⟨_, _, Option.map_eq_some_iff.mpr ⟨_, hloop, rfl⟩, ?_⟩
    have hin := htable.mpr ⟨rfl, hwhole⟩
    have hin' := hcpus.mpr ⟨rfl, Or.inr hhi⟩
    unfold finish
    split
    · exact ⟨hin, hin', hlo, hhi⟩
    · exact ⟨hin, hin', Nat.le_refl 1, Nat.le_add_left 1 7⟩

def unknownType : Memory := fun i =>
  (([80, 67, 77, 80, 45, 0, 1, 157] : List UInt8) ++ List.replicate 36 0 ++ [5]).getD i 0

theorem loop_unknown (hp : s.p < e) (hk : kind (mem s.p) = none) :
    loop mem e fuel s = none := by
  cases hloop : loop mem e fuel s with
  | none => rfl
  | some s' =>
    obtain ⟨kinds, hkinds, -⟩ := entries_of_loop hloop
    cases kinds with
    | nil => exact absurd hp (Nat.not_lt.mpr hkinds)
    | cons k kinds => cases hk.symm.trans hkinds.2.1

/-- `mpconfig` accepts the table, and `mpinit` never returns. -/
theorem mpinit_hangs : mpconfig unknownType = true ∧ ∀ fuel, mpinit unknownType fuel = none := by
  refine ⟨by decide, fun fuel => ?_⟩
  rw [mpinit, loop_unknown (by decide) (by decide), Option.map_none]

end Xv6.Mp
