import Mathlib.Tactic.Common

/-! A lock as its owner field and as the agents see it: `Agrees` says that the
field names exactly the agent whose local state is inside the section. -/
namespace Xv6.Lock
open Function

variable {ι σ : Type*}

def Agrees (owner : Option ι) (inside : σ → Prop) (agent : ι → σ) : Prop :=
  ∀ i, owner = some i ↔ inside (agent i)

variable {owner : Option ι} {inside : σ → Prop} {agent : ι → σ} {i j : ι} {v w : σ}

theorem Agrees.same (h : Agrees owner inside agent) (hi : inside (agent i))
    (hj : inside (agent j)) : i = j :=
  Option.some.inj (((h i).mpr hi).symm.trans ((h j).mpr hj))

theorem Agrees.outside (h : Agrees none inside agent) (i : ι) : ¬ inside (agent i) :=
  fun hi => nomatch (h i).mpr hi

variable [DecidableEq ι]

theorem Agrees.keep (h : Agrees owner inside agent) (hi : agent i = w)
    (hv : inside v ↔ inside w) : Agrees owner inside (update agent i v) := by
  subst hi
  intro j
  by_cases hj : j = i
  · subst hj
    rw [update_self, hv]
    exact h j
  · rw [update_of_ne hj]
    exact h j

theorem Agrees.acquire (h : Agrees owner inside agent) (hfree : owner = none) (hv : inside v) :
    Agrees (some i) inside (update agent i v) := by
  subst hfree
  intro j
  by_cases hj : j = i
  · subst hj
    simp [hv]
  · rw [update_of_ne hj, Option.some.injEq]
    exact ⟨fun hij => absurd hij.symm hj, fun hin => absurd hin (h.outside j)⟩

theorem Agrees.release (h : Agrees owner inside agent) (hi : agent i = w) (hin : inside w)
    (hv : ¬ inside v) : Agrees none inside (update agent i v) := by
  subst hi
  intro j
  by_cases hj : j = i
  · subst hj
    simp [hv]
  · rw [update_of_ne hj]
    exact ⟨fun hnone => (nomatch hnone), fun hj' => absurd (h.same hj' hin) hj⟩

end Xv6.Lock
