import Mathlib.Data.List.GetD
import Mathlib.Data.Nat.ModEq

/-! A queue in a circular array. The two counters only grow, and wrap around at
a modulus that the size of the array divides. -/
namespace Xv6.Ring

variable {α : Type*} {size modulus : Nat}

def cell (hsize : 0 < size) (counter : Nat) : Fin size :=
  ⟨counter % size, Nat.mod_lt counter hsize⟩

/-- The array holds the queue from the cell of `head` on. -/
structure Holds (hsize : 0 < size) (modulus : Nat) (cells : Fin size → α) (head tail : Nat)
    (queue : List α) : Prop where
  tail_eq : tail = (head + queue.length) % modulus
  head_lt : head < modulus
  fits : queue.length ≤ size
  get : ∀ k, k < queue.length → queue[k]? = some (cells (cell hsize (head + k)))

variable {hsize : 0 < size} {cells : Fin size → α} {head tail : Nat} {queue : List α} {a : α}

theorem cell_mod (hdvd : size ∣ modulus) (counter : Nat) :
    cell hsize (counter % modulus) = cell hsize counter := by
  apply Fin.ext
  exact Nat.mod_mod_of_dvd counter hdvd

theorem cell_ne {k l : Nat} (hk : k < l) (hl : l < size) :
    cell hsize (head + k) ≠ cell hsize (head + l) := by
  intro hsame
  have hmod : head + k ≡ head + l [MOD size] := congrArg Fin.val hsame
  have hcancel : k ≡ l [MOD size] := Nat.ModEq.add_left_cancel' head hmod
  have heq := Nat.ModEq.eq_of_lt_of_lt hcancel (hk.trans hl) hl
  omega

theorem holds_nil (hhead : head < modulus) : Holds hsize modulus cells head head [] where
  tail_eq := by rw [List.length_nil, Nat.add_zero, Nat.mod_eq_of_lt hhead]
  head_lt := hhead
  fits := Nat.zero_le size
  get := fun k hk => absurd hk (Nat.not_lt_zero k)

section

variable (h : Holds hsize modulus cells head tail queue)
include h

/-- Fewer than a full turn of the counters apart, the counters tell how many
there are in the queue. -/
theorem Holds.distance (hlt : size < modulus)
    {n : Nat} (hn : n ≤ size) : tail = (head + n) % modulus ↔ queue.length = n := by
  rw [h.tail_eq]
  constructor
  · intro hsame
    have hcancel : queue.length ≡ n [MOD modulus] := Nat.ModEq.add_left_cancel' head hsame
    exact Nat.ModEq.eq_of_lt_of_lt hcancel (h.fits.trans_lt hlt) (hn.trans_lt hlt)
  · intro hlen
    rw [hlen]

theorem Holds.empty_iff (hlt : size < modulus) :
    head = tail ↔ queue = [] := by
  have hdist := h.distance hlt (Nat.zero_le size)
  rw [Nat.add_zero, Nat.mod_eq_of_lt h.head_lt] at hdist
  rw [eq_comm, hdist, List.length_eq_zero_iff]

theorem Holds.push (hdvd : size ∣ modulus)
    (hroom : queue.length < size) :
    Holds hsize modulus (Function.update cells (cell hsize tail) a) head ((tail + 1) % modulus)
      (queue ++ [a]) where
  tail_eq := by
    rw [h.tail_eq, Nat.mod_add_mod, List.length_append, List.length_singleton, Nat.add_assoc]
  head_lt := h.head_lt
  fits := by
    rw [List.length_append, List.length_singleton]
    omega
  get := by
    intro k hk
    rw [List.length_append, List.length_singleton] at hk
    have htail : cell hsize tail = cell hsize (head + queue.length) := by
      rw [h.tail_eq, cell_mod hdvd]
    by_cases hlast : k = queue.length
    · subst hlast
      simp [htail]
    · have hold : k < queue.length := by omega
      rw [List.getElem?_append_left hold, htail, Function.update_of_ne (cell_ne hold hroom)]
      exact h.get k hold

end

theorem Holds.pop (h : Holds hsize modulus cells head tail (a :: queue)) (hdvd : size ∣ modulus) :
    cells (cell hsize head) = a ∧ Holds hsize modulus cells ((head + 1) % modulus) tail queue := by
  have hfits := h.fits
  have hpos : 0 < modulus := (Nat.zero_le head).trans_lt h.head_lt
  rw [List.length_cons] at hfits
  refine ⟨?_, ?_, Nat.mod_lt _ hpos, by omega, ?_⟩
  · have hfirst := h.get 0 (by simp)
    simpa using hfirst.symm
  · rw [h.tail_eq, Nat.mod_add_mod, List.length_cons]
    congr 1
    omega
  · intro k hk
    have hnext := h.get (k + 1) (by rw [List.length_cons]; omega)
    have hcell : cell hsize ((head + 1) % modulus + k) = cell hsize (head + (k + 1)) := by
      rw [← cell_mod hdvd, Nat.mod_add_mod, cell_mod hdvd]
      congr 1
      omega
    rw [hcell, ← hnext, List.getElem?_cons_succ]

end Xv6.Ring
