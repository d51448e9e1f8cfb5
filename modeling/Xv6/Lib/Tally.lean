import Mathlib.Data.Fintype.Card

/-! How many agents of a finite family are in a state of some kind, and what
the number becomes when one agent moves. -/
namespace Xv6.Tally
open Function

variable {ι σ : Type*} [Fintype ι] {kind : σ → Bool} {agent : ι → σ} {i : ι} {v : σ}

def tally (kind : σ → Bool) (agent : ι → σ) : ℕ :=
  (Finset.univ.filter fun i => kind (agent i)).card

theorem tally_le : tally kind agent ≤ Fintype.card ι :=
  Finset.card_le_univ _

theorem exists_of_tally_lt (h : tally kind agent < Fintype.card ι) :
    ∃ i, kind (agent i) = false := by
  by_contra hall
  simp only [not_exists, Bool.not_eq_false] at hall
  apply h.ne
  rw [tally, Finset.filter_true_of_mem fun i _ => hall i]
  exact Finset.card_univ

theorem forall_of_tally (h : tally kind agent = Fintype.card ι) (i : ι) :
    kind (agent i) = true := by
  have hall := (Finset.card_eq_iff_eq_univ _).mp h
  have hi := Finset.mem_univ i
  rw [← hall] at hi
  exact (Finset.mem_filter.mp hi).2

theorem exists_of_tally_pos (h : 0 < tally kind agent) : ∃ i, kind (agent i) = true := by
  obtain ⟨i, hi⟩ := Finset.card_pos.mp h
  exact ⟨i, (Finset.mem_filter.mp hi).2⟩

theorem not_of_tally (h : tally kind agent = 0) (i : ι) : kind (agent i) = false := by
  have hnone := Finset.filter_eq_empty_iff.mp (Finset.card_eq_zero.mp h) (Finset.mem_univ i)
  exact Bool.eq_false_iff.mpr hnone

theorem eq_of_tally_le_one {j : ι} (h : tally kind agent ≤ 1) (hi : kind (agent i) = true)
    (hj : kind (agent j) = true) : i = j :=
  Finset.card_le_one.mp h i (Finset.mem_filter.mpr ⟨Finset.mem_univ i, hi⟩) j
    (Finset.mem_filter.mpr ⟨Finset.mem_univ j, hj⟩)

theorem tally_eq_zero (h : ∀ i, kind (agent i) = false) : tally kind agent = 0 := by
  simp [tally, h]

variable [DecidableEq ι]

theorem tally_keep (h : kind v = kind (agent i)) :
    tally kind (update agent i v) = tally kind agent := by
  apply congrArg Finset.card
  ext j
  by_cases hj : j = i
  · subst hj
    simp [h]
  · simp [hj]

theorem tally_join (hi : kind (agent i) = false) (hv : kind v = true) :
    tally kind (update agent i v) = tally kind agent + 1 := by
  have hnew : (Finset.univ.filter fun j => kind (update agent i v j)) =
      insert i (Finset.univ.filter fun j => kind (agent j)) := by
    ext j
    by_cases hj : j = i
    · subst hj
      simp [hv]
    · simp [hj]
  rw [tally, hnew, Finset.card_insert_of_notMem (by simp [hi]), tally]

theorem tally_leave (hi : kind (agent i) = true) (hv : kind v = false) :
    tally kind (update agent i v) + 1 = tally kind agent := by
  have hback : update (update agent i v) i (agent i) = agent := by simp
  have hjoin : tally kind (update (update agent i v) i (agent i)) =
      tally kind (update agent i v) + 1 := tally_join (by simpa using hv) hi
  rw [hback] at hjoin
  exact hjoin.symm

theorem tally_update : tally kind (update agent i v) + (if kind (agent i) then 1 else 0) =
    tally kind agent + (if kind v then 1 else 0) := by
  cases hi : kind (agent i) <;> cases hv : kind v
  · rw [tally_keep (hv.trans hi.symm)]
  · rw [tally_join hi hv]
    rfl
  · rw [← tally_leave hi hv]
    rfl
  · rw [tally_keep (hv.trans hi.symm)]

end Xv6.Tally
