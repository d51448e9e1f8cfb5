import Mathlib.Data.List.Basic

/-! Tables of slots. The entries of a list have a key or are free, and the list is
a finite map while no two entries have the same key. A new entry goes to a free slot
or behind the last one. In a table of fixed size one key stands for free. -/
namespace Xv6.Slots
open Function

variable {E K : Type*}

/-- The first entry that passes the test, with its index. -/
def first (test : E → Bool) : List E → Option (Nat × E)
  | [] => none
  | e :: rest => if test e then some (0, e) else (first test rest).map fun r => (r.1 + 1, r.2)

section

variable {test : E → Bool} {table : List E} {i : Nat} {e : E}

theorem first_eq_some : first test table = some (i, e) ↔
    table[i]? = some e ∧ test e = true ∧ ∀ j < i, ∀ d, table[j]? = some d → test d = false := by
  induction table generalizing i with
  | nil => exact ⟨fun h => (by cases h), fun h => (by cases h.1)⟩
  | cons head rest ih =>
    unfold first
    split
    · rename_i htest
      constructor
      · intro h
        cases h
        exact ⟨rfl, htest, fun j hj => absurd hj (Nat.not_lt_zero j)⟩
      · rintro ⟨hi, _, hbefore⟩
        cases i with
        | zero =>
          cases hi
          rfl
        | succ i =>
          have hhead := hbefore 0 (Nat.succ_pos i) head rfl
          rw [hhead] at htest
          cases htest
    · rename_i htest
      constructor
      · intro h
        obtain ⟨⟨j, d⟩, hj, hresult⟩ := Option.map_eq_some_iff.mp h
        cases hresult
        obtain ⟨hget, hpass, hbefore⟩ := ih.mp hj
        refine ⟨hget, hpass, fun k hk d hd => ?_⟩
        cases k with
        | zero =>
          cases hd
          exact Bool.eq_false_iff.mpr htest
        | succ k => exact hbefore k (Nat.lt_of_succ_lt_succ hk) d hd
      · rintro ⟨hi, hpass, hbefore⟩
        cases i with
        | zero =>
          cases hi
          exact absurd hpass htest
        | succ i =>
          have hrest := ih.mpr ⟨hi, hpass, fun j hj d hd =>
            hbefore (j + 1) (Nat.succ_lt_succ hj) d hd⟩
          rw [hrest]
          rfl

end

variable (key : E → Option K)

def lookup [DecidableEq K] (table : List E) (k : K) : Option (Nat × E) :=
  first (fun e => decide (key e = some k)) table

section

variable {key : E → Option K} {table : List E} {i : Nat} {e : E} {k : K}

variable [DecidableEq K]

end

/-- An overwritten slot of a table of fixed size gets a key that no other slot has. -/
theorem distinct_update {ι : Type*} [DecidableEq ι] {table : ι → E} {key : E → K} {free : K}
    {i : ι} {e : E} (h : ∀ j k, key (table j) = key (table k) → key (table j) ≠ free → j = k)
    (hnew : key e ≠ free → ∀ j, j ≠ i → key (table j) ≠ key e) {j k : ι}
    (hjk : key (update table i e j) = key (update table i e k))
    (hfree : key (update table i e j) ≠ free) : j = k := by
  by_cases hj : j = i <;> by_cases hk : k = i
  · rw [hj, hk]
  · rw [hj, update_self] at hjk hfree
    rw [update_of_ne hk] at hjk
    exact absurd hjk.symm (hnew hfree k hk)
  · rw [hk, update_self, update_of_ne hj] at hjk
    rw [update_of_ne hj] at hfree
    exact absurd hjk (hnew (hjk ▸ hfree) j hj)
  · rw [update_of_ne hj] at hjk hfree
    rw [update_of_ne hk] at hjk
    exact h j k hjk hfree

end Xv6.Slots
