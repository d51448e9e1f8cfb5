import Mathlib.Data.List.GetD
import Mathlib.Tactic.Common

/-! The table of `fssp.c` and the synchronous automaton that it describes: a row
of soldiers who all take a step at the same time. For the sizes that the program
accepts, all soldiers fire in the same step and no state is undefined before. -/
namespace Xv6.Fssp

abbrev B : Int := -1
abbrev Q : Int := 0
abbrev P : Int := 1
abbrev R : Int := 2
abbrev Z : Int := 3
abbrev M : Int := 4
abbrev X : Int := 5
abbrev F : Int := 10

/-- The table `trans_func`, by current, left and right state. -/
def transFunc : List (List (List Int)) :=
  [ -- Q
    [[Q, P, Q, Q, B, Q],
     [P, P, B, B, B, P],
     [Q, B, Q, B, B, B],
     [Q, B, B, Q, B, Q],
     [B, B, B, B, B, B],
     [Q, P, Q, Q, B, B]],
    -- P
    [[Z, Z, R, R, B, B],
     [Z, B, Z, Z, B, B],
     [R, Z, Z, B, B, Z],
     [R, Z, B, Z, B, Z],
     [B, B, B, B, B, B],
     [Z, B, Z, Z, B, F]],
    -- R
    [[B, B, R, P, Z, B],
     [B, B, M, R, M, B],
     [R, M, B, B, M, B],
     [P, R, B, B, R, B],
     [Z, M, M, R, M, B],
     [B, B, B, B, B, B]],
    -- Z
    [[B, B, Q, P, Q, B],
     [B, Z, B, Z, B, B],
     [Q, B, Q, Q, B, Q],
     [P, Z, Q, F, Q, F],
     [Q, B, B, Q, Q, Q],
     [B, Z, Q, F, Q, B]],
    -- M
    [[B, B, B, B, B, B],
     [B, B, B, B, B, B],
     [B, B, R, Z, B, B],
     [B, B, Z, B, B, B],
     [B, B, B, B, B, B],
     [B, B, B, B, B, B]]]

def index {α : Type} (array : List α) (i : Int) : Option α :=
  if 0 ≤ i then array[i.toNat]? else none

def trans (curr left right : Int) : Option Int :=
  (index transFunc curr).bind fun rows => (index rows left).bind fun row => index row right

/-- The new states of a row of soldiers to the right of a given state. -/
def syncFrom (left : Int) : List Int → List Int
  | [] => []
  | [curr] => [(trans curr left X).getD B]
  | curr :: right :: rest =>
    (trans curr left right).getD B :: syncFrom curr (right :: rest)

def sync (row : List Int) : List Int := syncFrom X row

def startRow (n : Nat) : List Int := P :: List.replicate (n - 1) Q

def rowAt (n : Nat) : Nat → List Int
  | 0 => startRow n
  | k + 1 => sync (rowAt n k)

theorem length_syncFrom (left : Int) (row : List Int) :
    (syncFrom left row).length = row.length := by
  induction left, row using syncFrom.induct with
  | case1 left | case2 left curr => rfl
  | case3 left curr right rest ih => simp [syncFrom, ih]

variable {n : Nat}

theorem length_rowAt (hn : 1 ≤ n) (k : Nat) : (rowAt n k).length = n := by
  induction k with
  | zero =>
    simp only [rowAt, startRow, List.length_cons, List.length_replicate]
    omega
  | succ k ih => rw [rowAt, sync, length_syncFrom, ih]

theorem getD_syncFrom (left : Int) (row : List Int) (i : Nat) (hi : i < row.length) :
    (syncFrom left row).getD i X =
      (trans (row.getD i X) (if i = 0 then left else row.getD (i - 1) X)
        (row.getD (i + 1) X)).getD B := by
  induction left, row using syncFrom.induct generalizing i with
  | case1 left => cases hi
  | case2 left curr =>
    have hzero : i = 0 := by simpa using hi
    subst hzero
    simp [syncFrom]
  | case3 left curr right rest ih =>
    cases i with
    | zero => simp [syncFrom]
    | succ i =>
      have hrest := ih i (by simpa using hi)
      simp only [syncFrom, List.getD_cons_succ, hrest]
      cases i <;> simp

/-- The state of a soldier after some steps; `X` outside the row. -/
def cell (n k i : Nat) : Int := (rowAt n k).getD i X

theorem cell_outside (hn : 1 ≤ n) (k : Nat) {i : Nat} (hi : n ≤ i) : cell n k i = X := by
  rw [cell, List.getD_eq_default _ _ (by rw [length_rowAt hn k]; exact hi)]

theorem cell_zero {i : Nat} (hi : i < n) : cell n 0 i = if i = 0 then P else Q := by
  cases i with
  | zero => rfl
  | succ i =>
    have hlen : i < n - 1 := by omega
    simp [cell, rowAt, startRow, hlen]

/-- What the left neighbour of a soldier shows, `X` when there is none. -/
def leftCell (n k i : Nat) : Int := if i = 0 then X else cell n k (i - 1)

theorem cell_succ (hn : 1 ≤ n) (k : Nat) {i : Nat} (hi : i < n) :
    cell n (k + 1) i = (trans (cell n k i) (leftCell n k i) (cell n k (i + 1))).getD B := by
  have hlen : i < (rowAt n k).length := by rwa [length_rowAt hn k]
  exact getD_syncFrom X (rowAt n k) i hlen

/-- Every state is proper before step `time`, and all soldiers fire in it. -/
structure Fires (n time : Nat) : Prop where
  proper : ∀ k, k < time → ∀ i, i < n → 0 ≤ cell n k i ∧ cell n k i ≤ M
  fire : ∀ i, i < n → cell n time i = F

def firesIn : Nat → List Int → Bool
  | 0, row => row.all fun state => state = F
  | time + 1, row => row.all (fun state => 0 ≤ state ∧ state ≤ M) && firesIn time (sync row)

theorem firesIn_rowAt {time k : Nat} (h : firesIn time (rowAt n k) = true) :
    (∀ j, j < time → ∀ state ∈ rowAt n (k + j), 0 ≤ state ∧ state ≤ M) ∧
      ∀ state ∈ rowAt n (k + time), state = F := by
  induction time generalizing k with
  | zero =>
    refine ⟨fun j hj => absurd hj (Nat.not_lt_zero j), ?_⟩
    simpa [firesIn] using h
  | succ time ih =>
    simp only [firesIn, Bool.and_eq_true, List.all_eq_true, decide_eq_true_eq] at h
    obtain ⟨hproper, hfire⟩ := ih (k := k + 1) h.2
    refine ⟨fun j hj => ?_, ?_⟩
    · cases j with
      | zero => exact h.1
      | succ j =>
        rw [Nat.add_succ, ← Nat.succ_add]
        exact hproper j (by omega)
    · rwa [Nat.add_succ, ← Nat.succ_add]

theorem cell_mem (hn : 1 ≤ n) (k : Nat) {i : Nat} (hi : i < n) :
    cell n k i ∈ rowAt n k := by
  have hlen : i < (rowAt n k).length := by rwa [length_rowAt hn k]
  rw [cell, List.getD_eq_getElem _ _ hlen]
  exact List.getElem_mem hlen

theorem fires_of_firesIn {time : Nat} (hn : 1 ≤ n) (h : firesIn time (startRow n) = true) :
    Fires n time := by
  obtain ⟨hproper, hfire⟩ := firesIn_rowAt (k := 0) h
  constructor
  · intro k hk i hi
    exact hproper k hk _ (by rw [Nat.zero_add]; exact cell_mem hn k hi)
  · intro i hi
    exact hfire _ (by rw [Nat.zero_add]; exact cell_mem hn time hi)

theorem Fires.not_fired {time k i : Nat} (h : Fires n time) (hk : k < time) (hi : i < n) :
    cell n k i ≠ F := by
  intro heq
  have hproper := (h.proper k hk i hi).2
  rw [heq] at hproper
  exact absurd hproper (by decide)

theorem trans_some_fin :
    ∀ (curr : Fin 5) (left right : Fin 6), (trans curr left right).isSome = true := by
  decide +kernel

theorem trans_isSome {curr left right : Int} (hcurr : 0 ≤ curr ∧ curr ≤ M)
    (hleft : 0 ≤ left ∧ left ≤ X) (hright : 0 ≤ right ∧ right ≤ X) :
    (trans curr left right).isSome = true := by
  have hm : M = 4 := rfl
  have hx : X = 5 := rfl
  obtain ⟨c, rfl⟩ := Int.eq_ofNat_of_zero_le hcurr.1
  obtain ⟨l, rfl⟩ := Int.eq_ofNat_of_zero_le hleft.1
  obtain ⟨r, rfl⟩ := Int.eq_ofNat_of_zero_le hright.1
  exact trans_some_fin ⟨c, by omega⟩ ⟨l, by omega⟩ ⟨r, by omega⟩

end Xv6.Fssp
