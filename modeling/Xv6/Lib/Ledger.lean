import Mathlib.Algebra.BigOperators.Pi
import Mathlib.Algebra.Order.BigOperators.Group.Finset
import Mathlib.Order.Interval.Finset.Nat
import Mathlib.Tactic.Abel

/-! Accounting for interchangeable resources with a free list. A resource is
free, or has one exclusive owner, or is shared by any number of holders and has
a counter. Quantities are functions to the natural numbers, so that the owners
and holders of different parties are added up. -/
namespace Xv6.Ledger
open Function

theorem sum_update {ι α M : Type*} [Fintype ι] [DecidableEq ι] [AddCommMonoid M] (amount : α → M)
    (parties : ι → α) (p : ι) (x : α) :
    ∑ i, amount (update parties p x i) + amount (parties p) =
      ∑ i, amount (parties i) + amount x := by
  rw [← Finset.add_sum_erase Finset.univ _ (Finset.mem_univ p),
    ← Finset.add_sum_erase Finset.univ (fun i => amount (parties i)) (Finset.mem_univ p)]
  have hrest : ∑ i ∈ Finset.univ.erase p, amount (update parties p x i) =
      ∑ i ∈ Finset.univ.erase p, amount (parties i) := by
    refine Finset.sum_congr rfl ?_
    intro i hi
    rw [update_of_ne (Finset.ne_of_mem_erase hi)]
  rw [hrest, update_self]
  abel

theorem le_sum_apply {ι S : Type*} [Fintype ι] (amount : ι → S → ℕ) (i : ι) (r : S) :
    amount i r ≤ (∑ j, amount j) r := by
  rw [Finset.sum_apply]
  exact Finset.single_le_sum (f := fun j => amount j r) (fun _ _ => Nat.zero_le _)
    (Finset.mem_univ i)

theorem sum_unique {ι S : Type*} [Fintype ι] [DecidableEq ι] {amount : ι → S → ℕ} {i j : ι}
    {r : S} (h : (∑ k, amount k) r = 1) (hi : 0 < amount i r) (hj : 0 < amount j r) : i = j := by
  by_contra hij
  rw [Finset.sum_apply, ← Finset.add_sum_erase Finset.univ _ (Finset.mem_univ i)] at h
  have hle : amount j r ≤ ∑ k ∈ Finset.univ.erase i, amount k r :=
    Finset.single_le_sum (f := fun k => amount k r) (fun _ _ => Nat.zero_le _)
      (Finset.mem_erase.mpr ⟨Ne.symm hij, Finset.mem_univ j⟩)
  omega

variable {R : Type*} [DecidableEq R]

/-- How many of the first `n` places hold the resource. -/
def tally (n : Nat) (place : Nat → Option R) : R → ℕ :=
  fun r => ((Finset.range n).filter fun v => place v = some r).card

variable {n : Nat}

theorem tally_congr {left right : Nat → Option R}
    (h : ∀ v, v < n → left v = right v) : tally n left = tally n right := by
  funext r
  unfold tally
  congr 1
  apply Finset.filter_congr
  intro v hv
  rw [h v (Finset.mem_range.mp hv)]

variable {place : Nat → Option R}

theorem tally_pos {r : R} :
    0 < tally n place r ↔ ∃ v, v < n ∧ place v = some r := by
  simp [tally, Finset.card_pos, Finset.Nonempty]

theorem tally_unique {u v : Nat} {r : R} (h : tally n place r = 1)
    (hu : u < n) (hv : v < n) (hpu : place u = some r) (hpv : place v = some r) : u = v := by
  obtain ⟨w, hw⟩ := Finset.card_eq_one.mp h
  have hmem : ∀ x, x < n → place x = some r → x = w := by
    intro x hx hpx
    have hx' : x ∈ (Finset.range n).filter fun x => place x = some r := by simp [hx, hpx]
    rw [hw] at hx'
    exact Finset.mem_singleton.mp hx'
  rw [hmem u hu hpu, hmem v hv hpv]

theorem tally_none (h : ∀ v, v < n → place v = none) :
    tally n place = 0 := by
  funext r
  rw [Pi.zero_apply, ← Nat.le_zero, ← not_lt, tally_pos]
  rintro ⟨v, hv, hr⟩
  rw [h v hv] at hr
  cases hr

theorem tally_mono {before after : Nat → Option R}
    (h : ∀ v r, after v = some r → before v = some r) (r : R) :
    tally n after r ≤ tally n before r := by
  refine Finset.card_le_card ?_
  intro v hv
  simp only [Finset.mem_filter] at hv ⊢
  exact ⟨hv.1, h v r hv.2⟩

theorem tally_fill {v : Nat} {before after : Nat → Option R} {r : R} (hv : v < n)
    (hempty : before v = none) (hfull : after v = some r)
    (hsame : ∀ u, u ≠ v → after u = before u) :
    tally n after = tally n before + Pi.single r 1 := by
  funext q
  have hset : ((Finset.range n).filter fun u => after u = some q) =
      if q = r then insert v ((Finset.range n).filter fun u => before u = some q)
      else (Finset.range n).filter fun u => before u = some q := by
    ext u
    by_cases huv : u = v
    · subst huv
      by_cases hq : q = r
      · simp [hq, hfull, hv]
      · simp [hq, hfull, hempty, Ne.symm hq]
    · by_cases hq : q = r <;> simp [hq, hsame u huv, huv]
  simp only [tally, hset, Pi.add_apply, Pi.single_apply]
  split
  · rw [Finset.card_insert_of_notMem]
    simp [hempty]
  · rfl

def listed (items : List R) : R → ℕ :=
  fun r => items.count r

@[simp] theorem listed_nil : listed ([] : List R) = 0 := by
  funext r
  simp [listed]

theorem listed_cons (r : R) (items : List R) :
    listed (r :: items) = listed items + Pi.single r 1 := by
  funext q
  simp only [listed, List.count_cons, beq_iff_eq, Pi.add_apply, Pi.single_apply]
  simp only [eq_comm (a := r)]

theorem listed_append (left right : List R) :
    listed (left ++ right) = listed left + listed right := by
  funext q
  simp [listed]

theorem listed_filterMap_range (n : Nat) (place : Nat → Option R) :
    listed ((List.range n).filterMap place) = tally n place := by
  funext r
  induction n with
  | zero => simp [listed, tally]
  | succ n ih =>
    have hcard : tally (n + 1) place r = tally n place r + if place n = some r then 1 else 0 := by
      simp only [tally, Finset.range_add_one, Finset.filter_insert]
      split
      · rw [Finset.card_insert_of_notMem]
        simp
      · rfl
    rw [List.range_succ, List.filterMap_append, hcard, ← ih]
    cases hn : place n with
    | none => simp [listed, hn]
    | some q => simp [listed, hn, List.count_singleton]

/-- Adding a holder, with the special case for a counter that reads 0. -/
def bump (counter : ℤ) : ℤ :=
  if counter = 0 then 2 else counter + 1

/-- A reading turns a counter into a number of holders. -/
class Reading (read : ℤ → ℤ) : Prop where
  one : read 1 = 1
  bump : ∀ c, 0 < read c → read (bump c) = read c + 1
  leave : ∀ c, 1 < read c → read (c - 1) = read c - 1
  many : ∀ c, 1 < c → 1 < read c
  few : ∀ c, c ≤ 1 → read c ≤ 1

/-- A counter that was never set reads 0 and stands for a single holder. -/
def effective (counter : ℤ) : ℤ :=
  if counter = 0 then 1 else counter

instance reading_effective : Reading effective where
  one := rfl
  bump := by
    intro c h
    simp only [effective, Ledger.bump] at h ⊢
    split_ifs at h ⊢ <;> omega
  leave := by
    intro c h
    simp only [effective] at h ⊢
    split_ifs at h ⊢ <;> omega
  many := by
    intro c h
    simp only [effective]
    split_ifs <;> omega
  few := by
    intro c h
    simp only [effective]
    split_ifs <;> omega

instance reading_id : Reading id where
  one := rfl
  bump := by
    intro c h
    simp only [id_eq, Ledger.bump] at h ⊢
    split_ifs <;> omega
  leave := by simp
  many := by simp
  few := by simp

/-- No resource is in two places, counters of held resources are exact, and only
valid resources are in use. -/
structure Balanced (read : ℤ → ℤ) (valid : R → Prop) (free : List R) (owned shared : R → ℕ)
    (counter : R → ℤ) : Prop where
  once : ∀ r, free.count r + owned r + min 1 (shared r) ≤ 1
  exact : ∀ r, 0 < shared r → read (counter r) = shared r
  range : ∀ r, 0 < free.count r + owned r + shared r → valid r

variable {read : ℤ → ℤ} {valid : R → Prop} {free : List R} {owned shared : R → ℕ} {counter : R → ℤ}
    {r : R}

section

variable (h : Balanced read valid free owned shared counter)
include h

theorem Balanced.nodup : free.Nodup := by
  rw [List.nodup_iff_count_le_one]
  intro r
  have := h.once r
  omega

theorem Balanced.not_free_of_shared (hr : 0 < shared r) : r ∉ free := by
  intro hmem
  have hcount := List.count_pos_iff.mpr hmem
  have := h.once r
  omega

theorem Balanced.congr {owned' shared' : R → ℕ}
    (howned : ∀ r, owned' r = owned r) (hshared : ∀ r, shared' r = shared r) :
    Balanced read valid free owned' shared' counter := by
  rwa [funext howned, funext hshared]

theorem Balanced.mono {owned' : R → ℕ}
    (hle : ∀ r, owned' r ≤ owned r) : Balanced read valid free owned' shared counter where
  once := by
    intro r
    have := h.once r
    have := hle r
    omega
  exact := h.exact
  range := by
    intro r hr
    have := hle r
    exact h.range r (by omega)

end

theorem Balanced.alloc (h : Balanced read valid (r :: free) owned shared counter) :
    Balanced read valid free (owned + Pi.single r 1) shared counter where
  once := by
    intro q
    have := h.once q
    simp only [List.count_cons, beq_iff_eq, Pi.add_apply, Pi.single_apply] at this ⊢
    simp only [eq_comm (a := q)]
    omega
  exact := h.exact
  range := by
    intro q hq
    refine h.range q ?_
    simp only [List.count_cons, beq_iff_eq, Pi.add_apply, Pi.single_apply] at hq ⊢
    simp only [eq_comm (a := q)] at hq
    omega

theorem Balanced.release (h : Balanced read valid free (owned + Pi.single r 1) shared counter) :
    Balanced read valid (r :: free) owned shared counter where
  once := by
    intro q
    have := h.once q
    simp only [List.count_cons, beq_iff_eq, Pi.add_apply, Pi.single_apply] at this ⊢
    simp only [eq_comm (a := r)]
    omega
  exact := h.exact
  range := by
    intro q hq
    refine h.range q ?_
    simp only [List.count_cons, beq_iff_eq, Pi.add_apply, Pi.single_apply] at hq ⊢
    simp only [eq_comm (a := r)] at hq
    omega

theorem Balanced.recount (h : Balanced read valid free owned shared counter) {c : ℤ}
    (hr : 0 < owned r) : Balanced read valid free owned shared (update counter r c) where
  once := h.once
  exact := by
    intro q hq
    have hne : q ≠ r := by
      rintro rfl
      have := h.once q
      omega
    rw [update_of_ne hne]
    exact h.exact q hq
  range := h.range

theorem Balanced.attach (h : Balanced read valid free (owned + Pi.single r 1) shared counter)
    (hcounter : read (counter r) = 1) : Balanced read valid free owned (shared + Pi.single r 1)
      counter where
  once := by
    intro q
    have := h.once q
    simp only [Pi.add_apply, Pi.single_apply] at this ⊢
    split at this <;> rename_i hq
    · rw [if_pos hq]
      omega
    · rw [if_neg hq]
      simpa using this
  exact := by
    intro q hq
    simp only [Pi.add_apply, Pi.single_apply] at hq ⊢
    by_cases hqr : q = r
    · subst hqr
      have hone := h.once q
      simp only [Pi.add_apply, Pi.single_apply, if_true] at hone
      have h0 : shared q = 0 := by omega
      simp [hcounter, h0]
    · simp only [if_neg hqr, Nat.add_zero] at hq ⊢
      exact h.exact q hq
  range := by
    intro q hq
    refine h.range q ?_
    simp only [Pi.add_apply] at hq ⊢
    omega

theorem Balanced.share [Reading read] (h : Balanced read valid free owned shared counter)
    (hr : 0 < shared r) :
    Balanced read valid free owned (shared + Pi.single r 1)
      (update counter r (bump (counter r))) where
  once := by
    intro q
    have := h.once q
    simp only [Pi.add_apply, Pi.single_apply]
    by_cases hqr : q = r
    · subst hqr
      rw [if_pos rfl]
      omega
    · rw [if_neg hqr]
      omega
  exact := by
    intro q hq
    simp only [Pi.add_apply, Pi.single_apply] at hq ⊢
    by_cases hqr : q = r
    · subst hqr
      have hold := h.exact q hr
      have hbump : read (bump (counter q)) = read (counter q) + 1 := Reading.bump _ (by omega)
      rw [update_self, if_pos rfl, hbump, hold]
      rfl
    · simp only [if_neg hqr, Nat.add_zero] at hq ⊢
      rw [update_of_ne hqr]
      exact h.exact q hq
  range := by
    intro q hq
    refine h.range q ?_
    by_cases hqr : q = r
    · subst hqr
      omega
    · simpa [hqr] using hq

section

variable (h : Balanced read valid free owned (shared + Pi.single r 1) counter)
include h

theorem Balanced.leave [Reading read] (hr : 0 < shared r) :
    Balanced read valid free owned shared (update counter r (counter r - 1)) where
  once := by
    intro q
    have := h.once q
    simp only [Pi.add_apply, Pi.single_apply] at this
    omega
  exact := by
    intro q hq
    have hold := h.exact q (by simp only [Pi.add_apply]; omega)
    simp only [Pi.add_apply, Pi.single_apply] at hold
    by_cases hqr : q = r
    · subst hqr
      rw [if_pos rfl] at hold
      have hleave : read (counter q - 1) = read (counter q) - 1 := Reading.leave _ (by omega)
      rw [update_self, hleave, hold]
      omega
    · rw [update_of_ne hqr]
      simpa [hqr] using hold
  range := by
    intro q hq
    refine h.range q ?_
    simp only [Pi.add_apply]
    omega

theorem Balanced.detach
    (hr : shared r = 0) : Balanced read valid free (owned + Pi.single r 1) shared counter where
  once := by
    intro q
    have := h.once q
    simp only [Pi.add_apply, Pi.single_apply] at this ⊢
    by_cases hqr : q = r
    · subst hqr
      simp only [if_true] at this ⊢
      omega
    · simp only [if_neg hqr] at this ⊢
      omega
  exact := by
    intro q hq
    have hold := h.exact q (by simp only [Pi.add_apply]; omega)
    have hqr : q ≠ r := by
      rintro rfl
      omega
    simpa [hqr] using hold
  range := by
    intro q hq
    refine h.range q ?_
    simp only [Pi.add_apply] at hq ⊢
    omega

theorem Balanced.shared_of_counter [Reading read] (hr : 1 < counter r) :
    0 < shared r := by
  have hold := h.exact r (by simp)
  have hmany : 1 < read (counter r) := Reading.many _ hr
  simp only [Pi.add_apply, Pi.single_eq_same] at hold
  omega

theorem Balanced.single_of_counter [Reading read] (hr : counter r ≤ 1) :
    shared r = 0 := by
  have hold := h.exact r (by simp)
  have hfew : read (counter r) ≤ 1 := Reading.few _ hr
  simp only [Pi.add_apply, Pi.single_eq_same] at hold
  omega

end

end Xv6.Ledger
