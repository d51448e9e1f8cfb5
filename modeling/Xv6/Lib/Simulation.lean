import Xv6.Lib.Transition

/-! Traces of systems whose steps have an outcome, and a forward simulation with
hidden events. -/
namespace Xv6.Simulation
open Transition

variable {σ τ α ω : Type*}

/-- The final state of a run and its events in order. -/
def trace (step : σ → α → Option (σ × ω)) : σ → List α → Option (σ × List (α × ω))
  | s, [] => some (s, [])
  | s, a :: rest =>
    (step s a).bind fun next =>
      (trace step next.1 rest).map fun result => (result.1, (a, next.2) :: result.2)

def forget (step : σ → α → Option (σ × ω)) (s : σ) (a : α) : Option σ :=
  (step s a).map Prod.fst

variable {step : σ → α → Option (σ × ω)}

theorem forget_of_step {s next : σ} {a : α} {out : ω}
    (h : step s a = some (next, out)) : forget step s a = some next := by
  simp [forget, h]

variable {events : List (α × ω)}

theorem trace_cons_eq_some {s final : σ} {a : α} {rest : List α} :
    trace step s (a :: rest) = some (final, events) ↔
      ∃ next out later, step s a = some (next, out) ∧ trace step next rest = some (final, later) ∧
        events = (a, out) :: later := by
  simp only [trace, Option.bind_eq_some_iff, Option.map_eq_some_iff, Prod.mk.injEq, Prod.exists]
  constructor
  · rintro ⟨next, out, hstep, final', later, hrest, rfl, rfl⟩
    exact ⟨next, out, later, hstep, hrest, rfl⟩
  · rintro ⟨next, out, later, hstep, hrest, rfl⟩
    exact ⟨next, out, hstep, final, later, hrest, rfl, rfl⟩

variable {labels : List α}

theorem run_of_trace {s final : σ} (h : trace step s labels = some (final, events)) :
    run (forget step) s labels = some final := by
  induction labels generalizing s events with
  | nil =>
    cases h
    rfl
  | cons a rest ih =>
    obtain ⟨next, out, later, hnext, hrest, rfl⟩ := trace_cons_eq_some.mp h
    exact run_cons_eq_some.mpr ⟨next, forget_of_step hnext, ih hrest⟩

/-- A step of the abstract system for an event that is seen, and no change for
one that is not. -/
def Follows (spec : τ → α → Option (τ × ω)) (t t' : τ) : Option (α × ω) → Prop
  | none => t' = t
  | some event => spec t event.1 = some (t', event.2)

/-- The abstract system follows a concrete one. Only steps to good states
count. -/
theorem trace_simulates {spec : τ → α → Option (τ × ω)}
    {view : σ → τ} {seen : α × ω → Option (α × ω)} {inv good : σ → Prop} {guard : σ → α → Prop}
    (hstep : ∀ s a next out, inv s → guard s a → step s a = some (next, out) → good next →
      inv next ∧ Follows spec (view s) (view next) (seen (a, out)))
    {s final : σ} (hinv : inv s)
    (hmeets : Meets (forget step) guard s labels)
    (hgood : Along (forget step) (fun _ _ next => good next) s labels)
    (htrace : trace step s labels = some (final, events)) :
    trace spec (view s) ((events.filterMap seen).map Prod.fst) =
      some (view final, events.filterMap seen) := by
  induction labels generalizing s events with
  | nil =>
    cases htrace
    rfl
  | cons a rest ih =>
    obtain ⟨next, out, later, hnext, hrest, rfl⟩ := trace_cons_eq_some.mp htrace
    have hforget := forget_of_step hnext
    obtain ⟨hgood', hgoods⟩ := hgood next hforget
    obtain ⟨hinv', hfollows⟩ := hstep s a next out hinv hmeets.1 hnext hgood'
    have hlater := ih hinv' (hmeets.2 next hforget) hgoods hrest
    cases hseen : seen (a, out) with
    | none =>
      rw [hseen] at hfollows
      have hsame : view next = view s := hfollows
      rw [List.filterMap_cons_none hseen, ← hsame]
      exact hlater
    | some event =>
      rw [hseen] at hfollows
      rw [List.filterMap_cons_some hseen, List.map_cons]
      exact trace_cons_eq_some.mpr ⟨_, _, _, hfollows, hlater, rfl⟩

/-- A system that can always answer as the abstract one does has its traces. -/
theorem trace_implements {spec : τ → α → Option (τ × ω)}
    {view : σ → τ} {inv good : σ → Prop}
    (hstep : ∀ s a next out, inv s → spec (view s) a = some (next, out) →
      ∃ s' out', step s a = some (s', out') ∧ (good s' → inv s' ∧ view s' = next ∧ out' = out))
    {s : σ} {final : τ} (hinv : inv s)
    (hgood : Along (forget step) (fun _ _ next => good next) s labels)
    (htrace : trace spec (view s) labels = some (final, events)) :
    ∃ s', trace step s labels = some (s', events) ∧ view s' = final := by
  induction labels generalizing s events with
  | nil =>
    cases htrace
    exact ⟨s, rfl, rfl⟩
  | cons a rest ih =>
    obtain ⟨next, out, later, hnext, hrest, rfl⟩ := trace_cons_eq_some.mp htrace
    obtain ⟨s', out', hs', hkeep⟩ := hstep s a next out hinv hnext
    obtain ⟨hgood', hgoods⟩ := hgood s' (forget_of_step hs')
    obtain ⟨hinv', rfl, rfl⟩ := hkeep hgood'
    obtain ⟨final', htrace', hfinal⟩ := ih hinv' hgoods hrest
    exact ⟨final', trace_cons_eq_some.mpr ⟨s', out', later, hs', htrace', rfl⟩, hfinal⟩

end Xv6.Simulation
