import Mathlib.Tactic.Common

/-! `memmove` of `string.c`, which chooses the direction of copying, and of `ulib.c`,
which always copies upwards. -/
namespace Xv6.Memmove
open Function (update update_of_ne update_self)

abbrev Addr := BitVec 32
abbrev Mem := Addr → UInt8

/-- `while(n-- > 0) *d++ = *s++`. -/
def copyUp : Nat → Addr → Addr → Mem → Mem
  | 0, _, _, mem => mem
  | n + 1, d, s, mem => copyUp n (d + 1) (s + 1) (update mem d (mem s))

/-- `while(n-- > 0) *--d = *--s`. -/
def copyDown : Nat → Addr → Addr → Mem → Mem
  | 0, _, _, mem => mem
  | n + 1, d, s, mem => copyDown n (d - 1) (s - 1) (update mem (d - 1) (mem (s - 1)))

/-- `memmove` of the kernel. `n` is a `uint`, and `src + n` may wrap to 0. -/
def kernelMemmove (dst src : Addr) (n : BitVec 32) (mem : Mem) : Addr × Mem :=
  if src < dst ∧ src + n > dst then
    (dst, copyDown n.toNat (dst + n) (src + n) mem)
  else
    (dst, copyUp n.toNat dst src mem)

/-- `memmove` of the user library. `n` is an `int`. -/
def userMemmove (dst src : Addr) (n : BitVec 32) (mem : Mem) : Addr × Mem :=
  (dst, copyUp n.toInt.toNat dst src mem)

/-- The `n` bytes at `dst` are those that were at `src`, and the bytes outside of
them are as before. -/
structure Moved (dst src : Addr) (n : Nat) (mem mem' : Mem) : Prop where
  copied : ∀ i : Addr, i.toNat < n → mem' (dst + i) = mem (src + i)
  outside : ∀ a : Addr, a.toNat < dst.toNat ∨ dst.toNat + n ≤ a.toNat → mem' a = mem a

/-- The `n` bytes at `src` repeat after `k` bytes. -/
def Repeats (src k : Addr) (n : Nat) (mem : Mem) : Prop :=
  ∀ i : Addr, i.toNat + k.toNat < n → mem (src + (i + k)) = mem (src + i)

variable {dst src : Addr} {n : Nat} {mem : Mem}

theorem copyUp_outside {a : Addr} (ha : n ≤ (a - dst).toNat) :
    copyUp n dst src mem a = mem a := by
  induction n generalizing dst src mem with
  | zero => rfl
  | succ n ih =>
    rw [copyUp, ih (by bv_omega)]
    exact update_of_ne (by bv_omega) _ _

theorem copyUp_copied (hdst : dst.toNat + n ≤ 0x100000000) (hsrc : src.toNat + n ≤ 0x100000000)
    {i : Addr} (hi : i.toNat < n) : copyUp n dst src mem (dst + i) =
      if src < dst ∧ dst ≤ src + i then copyUp n dst src mem (src + i) else mem (src + i) := by
  induction n generalizing dst src mem i with
  | zero => exact absurd hi (Nat.not_lt_zero _)
  | succ n ih =>
    have hfirst : copyUp (n + 1) dst src mem dst = mem src := by
      rw [copyUp, copyUp_outside (by bv_omega), update_self]
    by_cases hzero : i = 0#32
    · subst hzero
      rw [BitVec.add_zero, BitVec.add_zero, if_neg (by bv_omega), hfirst]
    · have hnext := @ih (dst + 1) (src + 1) (update mem dst (mem src))
        (by bv_omega) (by bv_omega) (i - 1) (by bv_omega)
      rw [← copyUp, show dst + 1 + (i - 1) = dst + i by bv_omega,
        show src + 1 + (i - 1) = src + i by bv_omega] at hnext
      rw [hnext]
      by_cases hlater : src < dst ∧ dst < src + i
      · rw [if_pos (by bv_omega), if_pos (by bv_omega)]
      · rw [if_neg (by bv_omega)]
        by_cases hnow : src < dst ∧ dst = src + i
        · rw [if_pos (by bv_omega), ← hnow.2, hfirst, update_self]
        · rw [if_neg (by bv_omega), update_of_ne (by bv_omega)]

theorem copyUp_moved (hdst : dst.toNat + n ≤ 0x100000000) (hsrc : src.toNat + n ≤ 0x100000000)
    (hapart : dst ≤ src ∨ src.toNat + n ≤ dst.toNat) :
    Moved dst src n mem (copyUp n dst src mem) := by
  refine ⟨fun i hi => ?_, fun a ha => copyUp_outside (by bv_omega)⟩
  rw [copyUp_copied hdst hsrc hi, if_neg (by bv_omega)]

theorem copyDown_moved (hdst : dst.toNat + n ≤ 0x100000000) (hlt : src < dst) :
    Moved dst src n mem (copyDown n (dst + .ofNat 32 n) (src + .ofNat 32 n) mem) := by
  induction n generalizing mem with
  | zero => exact ⟨fun i hi => absurd hi (Nat.not_lt_zero _), fun a _ => rfl⟩
  | succ n ih =>
    have hnext := @ih (update mem (dst + .ofNat 32 n) (mem (src + .ofNat 32 n)))
      (by omega)
    rw [copyDown, show dst + BitVec.ofNat 32 (n + 1) - 1 = dst + .ofNat 32 n by bv_omega,
      show src + BitVec.ofNat 32 (n + 1) - 1 = src + .ofNat 32 n by bv_omega]
    refine ⟨fun i hi => ?_, fun a ha => ?_⟩
    · by_cases hlast : i = .ofNat 32 n
      · rw [hnext.outside _ (by bv_omega), hlast, update_self]
      · rw [hnext.copied i (by bv_omega), update_of_ne (by bv_omega)]
    · rw [hnext.outside a (by omega), update_of_ne (by bv_omega)]

/-- The copy upwards onto the end of its own source is right when the source
repeats what stands before that end. -/
theorem copyUp_moved_iff (hdst : dst.toNat + n ≤ 0x100000000)
    (hsrc : src.toNat + n ≤ 0x100000000) (hlt : src < dst) :
    Moved dst src n mem (copyUp n dst src mem) ↔ Repeats src (dst - src) n mem := by
  constructor
  · intro h i hi
    have hcopied := h.copied (i + (dst - src)) (by bv_omega)
    rw [copyUp_copied hdst hsrc (by bv_omega), if_pos (by bv_omega),
      show src + (i + (dst - src)) = dst + i by bv_omega, h.copied i (by omega)] at hcopied
    rw [show src + (i + (dst - src)) = dst + i by bv_omega, hcopied]
  · intro h
    refine ⟨fun i hi => ?_, fun a ha => copyUp_outside (by bv_omega)⟩
    -- A byte beyond the start of the destination was copied once before.
    induction hm : i.toNat using Nat.strongRecOn generalizing i with
    | ind m ih =>
      rw [copyUp_copied hdst hsrc hi]
      by_cases hover : dst ≤ src + i
      · have hback := ih (i - (dst - src)).toNat (by bv_omega) (i - (dst - src)) (by bv_omega) rfl
        have hrepeat := h (i - (dst - src)) (by bv_omega)
        rw [show dst + (i - (dst - src)) = src + i by bv_omega] at hback
        rw [show i - (dst - src) + (dst - src) = i by bv_omega] at hrepeat
        rw [if_pos ⟨hlt, hover⟩, hback, hrepeat]
      · rw [if_neg (by bv_omega)]

/-- The kernel's `memmove` moves every range. That of the user library moves it when
the destination does not begin within the source, or the source repeats itself. -/
theorem memmove_moves_iff (dst src : Addr) (mem : Mem) :
    (∀ n : BitVec 32, dst.toNat + n.toNat ≤ 0x100000000 → src.toNat + n.toNat ≤ 0x100000000 →
      Moved dst src n.toNat mem (kernelMemmove dst src n mem).2) ∧
    ∀ n : BitVec 32, 0 ≤ n.toInt → dst.toNat + n.toNat ≤ 0x100000000 →
      src.toNat + n.toNat ≤ 0x100000000 →
      (Moved dst src n.toNat mem (userMemmove dst src n mem).2 ↔
        dst ≤ src ∨ src.toNat + n.toNat ≤ dst.toNat ∨ Repeats src (dst - src) n.toNat mem) := by
  constructor
  · intro n hdst hsrc
    unfold kernelMemmove
    split
    · rename_i hover
      have hmoved : Moved dst src n.toNat mem _ := copyDown_moved hdst hover.1
      rwa [BitVec.ofNat_toNat, BitVec.setWidth_eq] at hmoved
    · exact copyUp_moved hdst hsrc (by bv_omega)
  · intro n hn hdst hsrc
    have hcount : n.toInt.toNat = n.toNat := by
      have hcond := BitVec.toInt_eq_toNat_cond n
      split at hcond <;> bv_omega
    rw [userMemmove, hcount]
    by_cases hapart : dst ≤ src ∨ src.toNat + n.toNat ≤ dst.toNat
    · exact ⟨fun _ => hapart.imp id Or.inl, fun _ => copyUp_moved hdst hsrc hapart⟩
    · rw [not_or] at hapart
      rw [copyUp_moved_iff hdst hsrc (BitVec.not_le.mp hapart.1)]
      simp only [hapart, false_or]

def threeBytes : Mem := fun a => if a = 0 then 1 else if a = 1 then 2 else 3

theorem memmove_moves_two_bytes : Moved 1 0 2 threeBytes (kernelMemmove 1 0 2 threeBytes).2 ∧
    Moved 0 1 2 threeBytes (userMemmove 0 1 2 threeBytes).2 :=
  ⟨(memmove_moves_iff 1 0 threeBytes).1 2 (by decide) (by decide),
    ((memmove_moves_iff 0 1 threeBytes).2 2 (by decide) (by decide) (by decide)).mpr
      (Or.inl (by decide))⟩

/-- Moved up by one in user space, the first byte also takes the place of the second. -/
theorem userMemmove_repeats_first_byte : (userMemmove 1 0 2 threeBytes).2 2 = 1 ∧
    ¬ Moved 1 0 2 threeBytes (userMemmove 1 0 2 threeBytes).2 :=
  ⟨by decide, fun h => absurd (h.copied 1 (by decide)) (by decide)⟩

end Xv6.Memmove
