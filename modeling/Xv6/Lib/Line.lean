import Mathlib.Data.List.Basic

/-! Lines of cells that all take a step at the same time, each by a rule over its
own state and the states of its two neighbours. A line can stand next to its mirror
image, or share its first cell with it. Where the rule does not tell the image from
a wall, the line then moves as it does alone. -/
namespace Xv6.Line

variable {α : Type} (rule : α → α → α → α)

/-- The new states of a row of cells between two neighbours. -/
def scan (left : α) : List α → α → List α
  | [], _ => []
  | cell :: rest, right => rule cell left (rest.headD right) :: scan cell rest right

@[simp] theorem scan_nil (left right : α) : scan rule left [] right = [] := rfl

@[simp] theorem scan_cons (left right cell : α) (rest : List α) :
    scan rule left (cell :: rest) right =
      rule cell left (rest.headD right) :: scan rule cell rest right := rfl

theorem scan_append (left right : α) (front back : List α) :
    scan rule left (front ++ back) right =
      scan rule left front (back.headD right) ++
        scan rule (front.getLastD left) back right := by
  induction front generalizing left with
  | nil => rfl
  | cons cell rest ih =>
    have hnext : (rest ++ back).headD right = rest.headD (back.headD right) := by
      cases rest <;> rfl
    rw [List.cons_append, scan_cons, scan_cons, ih cell, hnext, List.cons_append,
      List.getLastD_cons]

/-- A rule given by a table that has the entry `blank` where it says nothing. Where it
says something, it does not tell left from right, and it treats a wall on the left like
the mirror image of the row, whether or not the image has its first cell in common. -/
structure Mirrored (wall blank : α) : Prop where
  symm : ∀ cell left right, left ≠ wall → rule cell left right ≠ blank →
    rule cell right left = rule cell left right
  beside : ∀ cell right, right ≠ wall → rule cell wall right ≠ blank →
    rule cell cell right = rule cell wall right
  shared : ∀ cell right, right ≠ wall → rule cell wall right ≠ blank →
    rule cell right right = rule cell wall right

/-- A row beside its mirror image. -/
def beside (row : List α) : List α := row.reverse ++ row

/-- A row and its mirror image with the first cell in common. -/
def shared (row : List α) : List α := row.tail.reverse ++ row

variable {row : List α}

theorem mem_beside {cell : α} : cell ∈ beside row ↔ cell ∈ row := by
  simp [beside]

theorem mem_shared {cell : α} : cell ∈ shared row ↔ cell ∈ row := by
  rw [shared, List.mem_append, List.mem_reverse]
  exact or_iff_right_of_imp List.mem_of_mem_tail

variable {rule} {wall blank : α}

theorem scan_reverse (hrule : Mirrored rule wall blank) {left right : α}
    (hleft : left ≠ wall) (hrow : ∀ cell ∈ row, cell ≠ wall)
    (hblank : blank ∉ scan rule left row right) :
    scan rule right row.reverse left = (scan rule left row right).reverse := by
  induction row generalizing left with
  | nil => rfl
  | cons cell rest ih =>
    simp only [scan_cons, List.mem_cons, not_or] at hblank
    have hlast : rest.reverse.getLastD right = rest.headD right := by
      cases rest <;> simp
    have hcell := hrule.symm cell left (rest.headD right) hleft (Ne.symm hblank.1)
    have hrest := ih (hrow cell List.mem_cons_self)
      (fun other hmem => hrow other (List.mem_cons_of_mem cell hmem)) hblank.2
    rw [List.reverse_cons, scan_append, hlast, List.headD_cons, hrest,
      scan_cons rule left right cell rest, List.reverse_cons, ← hcell]
    rfl

section

variable (hrule : Mirrored rule wall blank) (hlen : 2 ≤ row.length)
  (hrow : ∀ cell ∈ row, cell ≠ wall) (hblank : blank ∉ scan rule wall row wall)
include hrule hlen hrow hblank

/-- A row of at least two cells moves beside its mirror image as it does alone. -/
theorem scan_beside : scan rule wall (beside row) wall = beside (scan rule wall row wall) := by
  match row, hlen with
  | cell :: next :: rest, _ =>
    have hsame : scan rule cell (cell :: next :: rest) wall =
        scan rule wall (cell :: next :: rest) wall := by
      simp only [scan_cons, List.mem_cons, not_or] at hblank
      rw [scan_cons, scan_cons rule wall, List.headD_cons,
        hrule.beside cell _ (hrow next (by simp)) (Ne.symm hblank.1)]
    have hlast : (cell :: next :: rest).reverse.getLastD wall = cell := by simp
    have hreverse := scan_reverse hrule (hrow cell (by simp)) hrow (hsame ▸ hblank)
    rw [beside, scan_append, hlast, List.headD_cons, hreverse, hsame, beside]

theorem scan_shared : scan rule wall (shared row) wall = shared (scan rule wall row wall) := by
  match row, hlen with
  | cell :: next :: rest, _ =>
    rw [scan_cons, List.mem_cons, not_or] at hblank
    have hcell := hrule.shared cell _ (hrow next (by simp)) (Ne.symm hblank.1)
    have hlast : (next :: rest).reverse.getLastD wall = next := by simp
    have hreverse := scan_reverse hrule (hrow cell (by simp))
      (fun other hmem => hrow other (List.mem_cons_of_mem cell hmem)) hblank.2
    rw [shared, List.tail_cons, scan_append, hlast, List.headD_cons, hreverse,
      scan_cons rule next, scan_cons rule wall, List.headD_cons, hcell]
    rfl

end

end Xv6.Line
