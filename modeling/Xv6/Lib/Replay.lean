import Mathlib.Data.List.Basic

/-! A store and a list of writes to it. -/
namespace Xv6.Replay
open Function

variable {κ α : Type*} [DecidableEq κ]

def replay (writes : List (κ × α)) (store : κ → α) : κ → α :=
  writes.foldl (fun store w => update store w.1 w.2) store

@[simp] theorem replay_nil (store : κ → α) : replay [] store = store := rfl

theorem replay_append (left right : List (κ × α)) (store : κ → α) :
    replay (left ++ right) store = replay right (replay left store) :=
  List.foldl_append

theorem replay_concat (writes : List (κ × α)) (w : κ × α) (store : κ → α) :
    replay (writes ++ [w]) store = update (replay writes store) w.1 w.2 := by
  rw [replay_append]
  rfl

theorem replay_of_not_mem {writes : List (κ × α)} {store : κ → α} {key : κ}
    (h : ∀ w ∈ writes, w.1 ≠ key) : replay writes store key = store key := by
  induction writes generalizing store with
  | nil => rfl
  | cons w rest ih =>
    have hw := h w List.mem_cons_self
    have hrest : replay rest (update store w.1 w.2) key =
        update store w.1 w.2 key := ih fun w' hw' => h w' (List.mem_cons_of_mem w hw')
    rw [update_of_ne hw.symm] at hrest
    exact hrest

end Xv6.Replay
