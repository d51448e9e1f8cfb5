import Mathlib.Tactic.Common

/-! Programs over a state that can fail, and how they run. A program that fails
has no result. -/
namespace Xv6.Command

/-- A program over states `σ` with a result in `α`. -/
structure Prog (σ α : Type) where
  run : σ → Option (α × σ)

instance (σ : Type) : Monad (Prog σ) where
  pure a := ⟨fun s => some (a, s)⟩
  bind x f := ⟨fun s => (x.run s).bind fun result => (f result.1).run result.2⟩

variable {σ α β : Type}

def update (f : σ → Option σ) : Prog σ Unit :=
  ⟨fun s => (f s).map fun next => ((), next)⟩

def read (f : σ → α) : Prog σ α :=
  ⟨fun s => some (f s, s)⟩

def fail : Prog σ α :=
  ⟨fun _ => none⟩

section

variable {x : Prog σ α} {f : α → Prog σ β} {a : α} {s s' : σ}

theorem run_update {g : σ → Option σ} (h : g s = some s') : (update g).run s = some ((), s') := by
  show (g s).map (fun next => ((), next)) = some ((), s')
  rw [h, Option.map_some]

theorem run_bind (h : x.run s = some (a, s')) : (x >>= f).run s = (f a).run s' := by
  show (x.run s).bind (fun result => (f result.1).run result.2) = (f a).run s'
  rw [h, Option.bind_some]

theorem run_bind_none (h : x.run s = none) : (x >>= f).run s = none := by
  show (x.run s).bind (fun result => (f result.1).run result.2) = none
  rw [h, Option.bind_none]

theorem run_iff {p : Prop} (good : α → σ → Prop)
    (h : p → ∃ s', x.run s = some (a, s') ∧ good a s') (hnot : ¬ p → x.run s = none) :
    (x.run s ≠ none ↔ p) ∧ ∀ b t, x.run s = some (b, t) → b = a ∧ good b t := by
  refine ⟨⟨fun hrun => not_not.mp fun hp => hrun (hnot hp), fun hp => ?_⟩, fun b t hrun => ?_⟩
  · obtain ⟨s', hrun, _⟩ := h hp
    rw [hrun]
    exact Option.some_ne_none _
  · have hp : p := not_not.mp fun hp => by
      rw [hnot hp] at hrun
      cases hrun
    obtain ⟨s', hrun', hgood⟩ := h hp
    rw [hrun] at hrun'
    cases hrun'
    exact ⟨rfl, hgood⟩

end

end Xv6.Command
