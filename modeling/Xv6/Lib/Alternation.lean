import Mathlib.Data.List.Basic

/-! A binary semaphore seen from outside: the completed operations, oldest
first, are a take, a give, a take and so on, and the semaphore is taken exactly
when their number is odd. -/
namespace Xv6.Alternation

inductive Op where
  | take
  | give
deriving DecidableEq, Repr

/-- The operation that is due after `count` completed ones. -/
def due (count : Nat) : Op :=
  if count % 2 = 0 then .take else .give

def Alternates (ops : List Op) : Prop :=
  ∀ k op, ops[k]? = some op → op = due k

theorem alternates_nil : Alternates [] := by
  intro k op h
  simp at h

variable {ops : List Op}

theorem alternates_concat (hops : Alternates ops) :
    Alternates (ops ++ [due ops.length]) := by
  intro k op h
  rw [List.getElem?_append] at h
  split at h
  · exact hops k op h
  · rename_i hk
    have hlen : k - ops.length = 0 := by
      by_contra hne
      rw [List.getElem?_eq_none (by simp only [List.length_singleton]; omega)] at h
      cases h
    have hkeq : k = ops.length := by omega
    subst hkeq
    simpa using h.symm

theorem alternates_take (hops : Alternates ops) (heven : ops.length % 2 = 0) :
    Alternates (ops ++ [.take]) := by
  have h := alternates_concat hops
  rwa [due, if_pos heven] at h

theorem alternates_give (hops : Alternates ops) (hodd : ops.length % 2 = 1) :
    Alternates (ops ++ [.give]) := by
  have h := alternates_concat hops
  rwa [due, if_neg (by omega)] at h

end Xv6.Alternation
