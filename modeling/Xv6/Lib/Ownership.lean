import Mathlib.Tactic.Common

/-! Resources held at places. A resource is taken exactly when it is reserved or
held, and it is held at one place at most. -/
namespace Xv6.Ownership

variable {P R : Type*}

/-- `valid` are the resources there are, `hold` says what each place holds and
`taken` is the record of the resources in use. -/
structure Owned (valid reserved : R → Prop) (hold : P → Option R) (taken : R → Prop) : Prop where
  range : ∀ p r, hold p = some r → valid r ∧ ¬ reserved r
  once : ∀ p p' r, hold p = some r → hold p' = some r → p = p'
  exact : ∀ r, valid r → (taken r ↔ reserved r ∨ ∃ p, hold p = some r)

variable {valid reserved taken taken' : R → Prop} {hold hold' : P → Option R} {p : P} {r : R}

theorem Owned.congr (h : Owned valid reserved hold taken) (hhold : ∀ p, hold' p = hold p)
    (htaken : ∀ r, valid r → (taken' r ↔ taken r)) : Owned valid reserved hold' taken' := by
  obtain rfl : hold' = hold := funext hhold
  exact ⟨h.range, h.once, fun r hr => (htaken r hr).trans (h.exact r hr)⟩

theorem Owned.used (h : Owned valid reserved hold taken) (hp : hold p = some r) : taken r :=
  (h.exact r (h.range p r hp).1).mpr (Or.inr ⟨p, hp⟩)

variable [DecidableEq P]

theorem Owned.attach (h : Owned valid reserved hold taken) (hr : valid r) (hfree : ¬ taken r)
    (hhold : ∀ q, hold' q = if q = p then some r else hold q) (hempty : hold p = none)
    (htaken : ∀ x, valid x → (taken' x ↔ x = r ∨ taken x)) :
    Owned valid reserved hold' taken' := by
  have hunheld : ∀ q, hold q ≠ some r := fun q hq => hfree (h.used hq)
  have hunreserved : ¬ reserved r := fun hres => hfree ((h.exact r hr).mpr (Or.inl hres))
  refine ⟨fun q x hx => ?_, fun q q' x hx hx' => ?_, fun x hx => ?_⟩
  · rw [hhold] at hx
    split at hx
    · cases hx
      exact ⟨hr, hunreserved⟩
    · exact h.range q x hx
  · rw [hhold] at hx hx'
    split at hx
    · cases hx
      split at hx'
      · rename_i hq hq'
        exact hq.trans hq'.symm
      · exact absurd hx' (hunheld q')
    · split at hx'
      · cases hx'
        exact absurd hx (hunheld q)
      · exact h.once q q' x hx hx'
  · rw [htaken x hx, h.exact x hx]
    constructor
    · rintro (rfl | hres | ⟨q, hq⟩)
      · exact Or.inr ⟨p, by rw [hhold, if_pos rfl]⟩
      · exact Or.inl hres
      · refine Or.inr ⟨q, ?_⟩
        have hqp : q ≠ p := by
          rintro rfl
          rw [hempty] at hq
          cases hq
        rw [hhold, if_neg hqp, hq]
    · rintro (hres | ⟨q, hq⟩)
      · exact Or.inr (Or.inl hres)
      · rw [hhold] at hq
        split at hq
        · cases hq
          exact Or.inl rfl
        · exact Or.inr (Or.inr ⟨q, hq⟩)

end Xv6.Ownership
