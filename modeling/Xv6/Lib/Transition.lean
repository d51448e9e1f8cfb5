import Mathlib.Data.List.Basic

/-! Labelled transition systems given by a partial step function. A label
resolves every choice of a step, so a run is a list of labels and can be
executed. A guard restricts the runs: it is a condition on the state before a
step and on the label, never on the result of the step. -/
namespace Xv6.Transition

variable {σ α : Type*}

/-- The state after all labels, `none` when one of them is not enabled. -/
def run (step : σ → α → Option σ) : σ → List α → Option σ
  | s, [] => some s
  | s, a :: rest => (step s a).bind fun next => run step next rest

/-- Every label of the run is issued in a state that satisfies the guard. -/
def Meets (step : σ → α → Option σ) (guard : σ → α → Prop) : σ → List α → Prop
  | _, [] => True
  | s, a :: rest => guard s a ∧ ∀ next, step s a = some next → Meets step guard next rest

/-- Every transition of the run satisfies a relation between its two states. -/
def Along (step : σ → α → Option σ) (rel : σ → α → σ → Prop) : σ → List α → Prop
  | _, [] => True
  | s, a :: rest => ∀ next, step s a = some next → rel s a next ∧ Along step rel next rest

variable {s : σ}

theorem taken {p : Prop} [Decidable p] {next : σ} (h : (if p then some next else none) = some s) :
    p ∧ next = s :=
  (Option.ite_none_right_eq_some.mp h).imp_right Option.some.inj

@[simp] theorem run_nil (step : σ → α → Option σ) (s : σ) : run step s [] = some s := rfl

variable {step : σ → α → Option σ} {final : σ}

theorem run_cons_eq_some {a : α} {rest : List α} :
    run step s (a :: rest) = some final ↔
      ∃ next, step s a = some next ∧ run step next rest = some final := by
  simp [run, Option.bind_eq_some_iff]

variable {guard : σ → α → Prop} {inv : σ → Prop} {labels : List α}

theorem run_invariant
    (hstep : ∀ s a next, inv s → guard s a → step s a = some next → inv next) (hinv : inv s)
    (hmeets : Meets step guard s labels) (hrun : run step s labels = some final) : inv final := by
  induction labels generalizing s with
  | nil =>
    cases hrun
    exact hinv
  | cons a rest ih =>
    obtain ⟨next, hnext, hrest⟩ := run_cons_eq_some.mp hrun
    exact ih (hstep s a next hinv hmeets.1 hnext) (hmeets.2 next hnext) hrest

theorem run_invariant_along {good : σ → Prop}
    (hstep : ∀ s a next, inv s → guard s a → step s a = some next → good next → inv next)
    (hinv : inv s) (hmeets : Meets step guard s labels)
    (hgood : Along step (fun _ _ next => good next) s labels)
    (hrun : run step s labels = some final) : inv final := by
  induction labels generalizing s with
  | nil =>
    cases hrun
    exact hinv
  | cons a rest ih =>
    obtain ⟨next, hnext, hrest⟩ := run_cons_eq_some.mp hrun
    obtain ⟨hnow, hlater⟩ := hgood next hnext
    exact ih (hstep s a next hinv hmeets.1 hnext hnow) (hmeets.2 next hnext) hlater hrest

/-- An invariant that implies a relation on every guarded step gives the
relation along every guarded run. -/
theorem along_of_invariant {rel : σ → α → σ → Prop}
    (hstep : ∀ s a next, inv s → guard s a → step s a = some next → inv next ∧ rel s a next)
    (hinv : inv s) (hmeets : Meets step guard s labels) : Along step rel s labels := by
  induction labels generalizing s with
  | nil => trivial
  | cons a rest ih =>
    intro next hnext
    obtain ⟨hinv', hrel⟩ := hstep s a next hinv hmeets.1 hnext
    exact ⟨hrel, ih hinv' (hmeets.2 next hnext)⟩

theorem run_length_le {left : σ → ℕ}
    (hstep : ∀ s a next, inv s → step s a = some next → inv next ∧ left next < left s)
    (hinv : inv s) (hrun : run step s labels = some final) : labels.length + left final ≤ left
    s := by
  induction labels generalizing s with
  | nil =>
    cases hrun
    simp
  | cons a rest ih =>
    obtain ⟨next, hnext, hrest⟩ := run_cons_eq_some.mp hrun
    obtain ⟨hinv', hlt⟩ := hstep s a next hinv hnext
    have hle := ih hinv' hrest
    simp only [List.length_cons]
    omega

theorem Along.last {rel : σ → α → σ → Prop} {mid : σ} {a : α} (h : Along step rel s (labels ++ [a]))
    (hrun : run step s labels = some mid) (hstep : step mid a = some final) :
    rel mid a final := by
  induction labels generalizing s with
  | nil =>
    cases hrun
    exact (h final hstep).1
  | cons b rest ih =>
    obtain ⟨next, hnext, hrest⟩ := run_cons_eq_some.mp hrun
    exact ih (h next hnext).2 hrest

theorem meets_of_forall (h : ∀ a ∈ labels, ∀ s, guard s a) (s : σ) : Meets step guard s labels := by
  induction labels generalizing s with
  | nil => trivial
  | cons a rest ih =>
    refine ⟨h a List.mem_cons_self s, fun next _ => ?_⟩
    exact ih (fun b hb => h b (List.mem_cons_of_mem a hb)) next

theorem Meets.and {guard' : σ → α → Prop}
    (h : Meets step guard s labels) (h' : Meets step guard' s labels) :
    Meets step (fun s a => guard s a ∧ guard' s a) s labels := by
  induction labels generalizing s with
  | nil => trivial
  | cons a rest ih =>
    exact ⟨⟨h.1, h'.1⟩, fun next hnext => ih (h.2 next hnext) (h'.2 next hnext)⟩

/-! Guards, relations and final states that can be checked are checked by running. -/

instance Meets.decidable [∀ s a, Decidable (guard s a)] :
    (labels : List α) → (s : σ) → Decidable (Meets step guard s labels)
  | [], _ => isTrue trivial
  | a :: rest, s =>
    have : DecidablePred fun next => Meets step guard next rest := decidable rest
    inferInstanceAs (Decidable (guard s a ∧ ∀ next ∈ step s a, Meets step guard next rest))

instance Along.decidable {rel : σ → α → σ → Prop} [∀ s a next, Decidable (rel s a next)] :
    (labels : List α) → (s : σ) → Decidable (Along step rel s labels)
  | [], _ => isTrue trivial
  | a :: rest, s =>
    have : DecidablePred fun next => Along step rel next rest := decidable rest
    inferInstanceAs (Decidable (∀ next ∈ step s a, rel s a next ∧ Along step rel next rest))

instance decidableExistsSome {result : Option σ} {p : σ → Prop} [DecidablePred p] :
    Decidable (∃ s, result = some s ∧ p s) :=
  inferInstanceAs (Decidable (∃ s ∈ result, p s))

instance decidableExistsSomePair {β : Type*} [DecidableEq β] {result : Option (σ × β)} {b : β}
    {p : σ → Prop} [DecidablePred p] : Decidable (∃ s, result = some (s, b) ∧ p s) :=
  decidable_of_iff (∃ pair, result = some pair ∧ pair.2 = b ∧ p pair.1) ⟨
    fun ⟨pair, hpair, hsnd, hp⟩ => ⟨pair.1, hsnd ▸ hpair, hp⟩,
    fun ⟨s, hs, hp⟩ => ⟨(s, b), hs, rfl, hp⟩⟩

/-- Where a fact comes from: when every step that ends in the fact starts in it or is a
cause of it, then the fact of a final state has held since the start or since a cause. -/
theorem run_origin {fact : σ → Prop}
    {cause : σ → α → Prop}
    (hinv : ∀ s a next, inv s → guard s a → step s a = some next → inv next)
    (hstep : ∀ s a next, inv s → guard s a → step s a = some next → fact next →
      fact s ∨ cause s a) (hs : inv s) (hmeets : Meets step guard s labels)
    (hrun : run step s labels = some final) (hfact : fact final) :
    (fact s ∧ Along step (fun _ _ next => fact next) s labels) ∨
      ∃ before a after mid, labels = before ++ a :: after ∧ run step s before = some mid ∧
        cause mid a ∧ Along step (fun _ _ next => fact next) mid (a :: after) := by
  induction labels generalizing s with
  | nil =>
    cases hrun
    exact Or.inl ⟨hfact, trivial⟩
  | cons a rest ih =>
    obtain ⟨next, hnext, hrest⟩ := run_cons_eq_some.mp hrun
    rcases ih (hinv s a next hs hmeets.1 hnext) (hmeets.2 next hnext) hrest with
      ⟨hnow, hlater⟩ | ⟨before, b, after, mid, rfl, hmid, hcause, hsince⟩
    · have hsince : Along step (fun _ _ next => fact next) s (a :: rest) := by
        intro next' hnext'
        cases hnext.symm.trans hnext'
        exact ⟨hnow, hlater⟩
      rcases hstep s a next hs hmeets.1 hnext hnow with hold | hcause
      · exact Or.inl ⟨hold, hsince⟩
      · exact Or.inr ⟨[], a, rest, s, rfl, rfl, hcause, hsince⟩
    · exact Or.inr ⟨a :: before, b, after, mid, rfl, run_cons_eq_some.mpr ⟨next, hnext, hmid⟩,
        hcause, hsince⟩

end Xv6.Transition
