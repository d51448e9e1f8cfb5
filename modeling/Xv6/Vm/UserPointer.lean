import Mathlib.Data.Fintype.Basic
import Xv6.Basic
import Xv6.Lib.Transition
import Xv6.Vm.Kalloc

/-! User pointers between their check and their use. `argstr` and `argptr` keep
the raw address, and `growproc` takes no lock, so that the threads of a process
change its memory and its size at every point where a call can be interrupted.
One process; a step of `allocuvm` and `deallocuvm` is one page. -/
namespace Xv6.UserPointer
open Function Transition Vm

abbrev Thread := Fin nthread

def uint (n : Int) : Nat := (n % 0x100000000).toNat

def isInt (n : Int) : Prop := -0x80000000 ≤ n ∧ n < 0x80000000

instance (n : Int) : Decidable (isInt n) := inferInstanceAs (Decidable (_ ∧ _))

inductive Pc where
  | user
  /-- In `fetchstr(addr)`, at byte `k`, with `ep` read from `proc->sz`. -/
  | fetchstr (addr ep k : Nat)
  /-- In a call with a string that `argstr` accepted with length `len`; `k` is
  the byte that is read next. -/
  | string (addr len k : Nat)
  /-- In a call with a buffer that `argptr` accepted. -/
  | buffer (addr : Nat) (size : Int)
  /-- In `allocuvm`, before page `v`. -/
  | allocuvm (oldsz newsz v : Nat)
  /-- In the `deallocuvm` of an `allocuvm` without memory. -/
  | undo (oldsz newsz v : Nat)
  | deallocuvm (oldsz newsz v : Nat)
  /-- Before `proc->sz = sz`, after a `deallocuvm` or not. -/
  | store (shrinks : Bool) (sz : Nat)
deriving DecidableEq

structure State where
  sz : Nat
  mapped : Nat → Bool
  byte : Nat → UInt8
  pc : Thread → Pc

inductive Act where
  | argstr (t : Thread) (addr : Nat)
  | argptr (t : Thread) (addr : Nat) (size : Int)
  /-- `fetchstr` looks at one byte. -/
  | scan (t : Thread)
  /-- The kernel reads one byte of the string; after the NUL it may start again. -/
  | read (t : Thread)
  /-- The kernel reads or writes byte `i` of the buffer. The length that `readi` compares
  with is unsigned. -/
  | access (t : Thread) (i : Nat) (write : Option UInt8)
  | done (t : Thread)
  | sbrk (t : Thread) (n : Int)
  /-- One page of `allocuvm`, with the outcome of `kalloc` and of the allocation
  of a page table in `mappages`, whose result is not looked at. -/
  | page (t : Thread) (kalloc table : Bool)
  /-- One page of `deallocuvm`; without a page table it goes on by a whole one. -/
  | unmap (t : Thread) (table : Bool)
  | setSz (t : Thread)
  | poke (t : Thread) (x : Nat) (byte : UInt8)

def State.goto (s : State) (t : Thread) (pc : Pc) : State :=
  { s with pc := update s.pc t pc }

/-- `growproc` up to the loops. -/
def growproc (s : State) (t : Thread) (n : Int) : State :=
  let newsz := uint (s.sz + n)
  if 0 < n then
    if kernbase ≤ newsz then s
    else if newsz < s.sz then s.goto t (.store false s.sz)
    else s.goto t (.allocuvm s.sz newsz (pages s.sz))
  else if n < 0 then
    if s.sz ≤ newsz then s.goto t (.store false s.sz)
    else s.goto t (.deallocuvm s.sz newsz (pages newsz))
  else s.goto t (.store false s.sz)

/-- A new page is zero; one that is there is the panic "remap". -/
def allocPage (s : State) (t : Thread) (oldsz newsz v : Nat) (kalloc table : Bool) : Option State :=
  if v < pages newsz then
    if kalloc = false then some (s.goto t (.undo oldsz newsz (pages oldsz)))
    else if table = false then some (s.goto t (.allocuvm oldsz newsz (v + 1)))
    else if s.mapped v then none
    else
      some ({ s with
        mapped := update s.mapped v true
        byte := fun x => if x / pgsize = v then 0 else s.byte x }.goto t
          (.allocuvm oldsz newsz (v + 1)))
  else some (s.goto t (.store false newsz))

/-- The page after `v`, and what is mapped then. -/
def unmapPage (s : State) (v : Nat) (table : Bool) : Option (State × Nat) :=
  if table = false then if s.mapped v then none else some (s, v + 1024)
  else some ({ s with mapped := update s.mapped v false }, v + 1)

def step (s : State) : Act → Option State
  | .argstr t addr =>
    match s.pc t with
    | .user => if s.sz ≤ addr then some s else some (s.goto t (.fetchstr addr s.sz 0))
    | _ => none
  | .argptr t addr size =>
    match s.pc t with
    | .user =>
      if isInt size then
        if s.sz ≤ addr ∨ s.sz < uint (addr + size) then some s
        else some (s.goto t (.buffer addr size))
      else none
    | _ => none
  | .scan t =>
    match s.pc t with
    | .fetchstr addr ep k =>
      if addr + k < ep then
        if s.byte (addr + k) = 0 then some (s.goto t (.string addr k 0))
        else some (s.goto t (.fetchstr addr ep (k + 1)))
      else some (s.goto t .user)
    | _ => none
  | .read t =>
    match s.pc t with
    | .string addr len k =>
      some (s.goto t (.string addr len (if s.byte (addr + k) = 0 then 0 else k + 1)))
    | _ => none
  | .access t i write =>
    match s.pc t with
    | .buffer addr size =>
      if i < uint size then
        some { s with byte := write.elim s.byte (update s.byte (uint (addr + i))) }
      else none
    | _ => none
  | .done t =>
    match s.pc t with
    | .string _ _ _ | .buffer _ _ => some (s.goto t .user)
    | _ => none
  | .sbrk t n =>
    match s.pc t with
    | .user => if isInt n then some (growproc s t n) else none
    | _ => none
  | .page t kalloc table =>
    match s.pc t with
    | .allocuvm oldsz newsz v => allocPage s t oldsz newsz v kalloc table
    | _ => none
  | .unmap t table =>
    match s.pc t with
    | .undo oldsz newsz v =>
      if v < pages newsz then
        (unmapPage s v table).map fun next => next.1.goto t (.undo oldsz newsz next.2)
      else some (s.goto t .user)
    | .deallocuvm oldsz newsz v =>
      if v < pages oldsz then
        (unmapPage s v table).map fun next => next.1.goto t (.deallocuvm oldsz newsz next.2)
      else if newsz = 0 then some (s.goto t .user)
      else some (s.goto t (.store true newsz))
    | _ => none
  | .setSz t =>
    match s.pc t with
    | .store _ sz => some ({ s with sz := sz }.goto t .user)
    | _ => none
  | .poke t x byte =>
    match s.pc t with
    | .user =>
      if s.mapped (x / pgsize) then some { s with byte := update s.byte x byte } else none
    | _ => none

def accessed (s : State) : Act → Option Nat
  | .scan t =>
    match s.pc t with
    | .fetchstr addr ep k => if addr + k < ep then some (addr + k) else none
    | _ => none
  | .read t =>
    match s.pc t with
    | .string addr _ k => some (addr + k)
    | _ => none
  | .access t i _ =>
    match s.pc t with
    | .buffer addr size => if i < uint size then some (uint (addr + i)) else none
    | _ => none
  | _ => none

/-- The accesses of the kernel are to mapped pages below `proc->sz`. -/
def InUser (s : State) (a : Act) (_ : State) : Prop :=
  ∀ x, accessed s a = some x → x < s.sz ∧ s.mapped (x / pgsize) = true

/-- Accepted strings end below `proc->sz`. -/
def Terminated (s : State) : Prop :=
  ∀ t addr len k, s.pc t = .string addr len k → ∃ j, addr + j < s.sz ∧ s.byte (addr + j) = 0

/-- No call is in progress and the address space is whole. -/
structure Start (s : State) : Prop where
  bound : s.sz ≤ kernbase
  user : ∀ t, s.pc t = .user
  mapped : ∀ v, v < pages s.sz → s.mapped v = true

def Pc.pointer : Pc → Bool
  | .fetchstr _ _ _ | .string _ _ _ | .buffer _ _ => true
  | _ => false

def Pc.grows : Pc → Bool
  | .allocuvm _ _ _ | .undo _ _ _ | .deallocuvm _ _ _ | .store _ _ => true
  | _ => false

def Pc.shrinks : Pc → Bool
  | .deallocuvm _ _ _ | .store true _ => true
  | _ => false

def Pc.nul : Pc → Option Nat
  | .string addr len _ => some (addr + len)
  | _ => none

/-- A store of `byte` at `x` leaves the NULs of accepted strings. -/
def sparesNul (s : State) (x : Nat) (byte : UInt8) : Bool :=
  byte == 0 || decide (∀ u, (s.pc u).nul ≠ some x)

/-- `sbrk` calls do not overlap, none shrinks the memory while a pointer is in use
or gives all of it back, no pointer is checked while one does, no buffer has a negative
length, `mappages` gets its page tables, and nobody overwrites the NUL of an accepted
string. -/
def calm (s : State) : Act → Bool
  | .argstr _ _ => decide (∀ u, (s.pc u).shrinks = false)
  | .argptr _ _ size => decide (0 ≤ size) && decide (∀ u, (s.pc u).shrinks = false)
  | .sbrk _ n =>
    decide (∀ u, (s.pc u).grows = false) &&
      (decide (0 ≤ n) || decide (∀ u, (s.pc u).pointer = false)) && decide ((s.sz : Int) + n ≠ 0)
  | .page _ _ table => table
  | .poke _ x byte => sparesNul s x byte
  | .access t i (some byte) =>
    match s.pc t with
    | .buffer addr _ => sparesNul s (uint (addr + i)) byte
    | _ => true
  | _ => true

variable {s s' : State} {t u : Thread} {pc pc' : Pc} {v x addr len k oldsz newsz sz : Nat}
    {size n : Int}

def Knows (s : State) : Pc → Prop
  | .user => True
  | .fetchstr _ ep _ => ep ≤ s.sz
  | .string addr len k => k ≤ len ∧ addr + len < s.sz ∧ s.byte (addr + len) = 0
  | .buffer addr size => ∀ i, i < uint size → uint (addr + i) < s.sz
  | .allocuvm oldsz newsz v =>
    oldsz = s.sz ∧ oldsz ≤ newsz ∧ newsz ≤ kernbase ∧ pages oldsz ≤ v ∧
      ∀ w, w < v → s.mapped w = true
  | .undo oldsz _ v => oldsz = s.sz ∧ pages oldsz ≤ v
  | .deallocuvm oldsz newsz v =>
    oldsz = s.sz ∧ newsz < oldsz ∧ newsz ≠ 0 ∧ pages newsz ≤ v ∧
      ∀ w, w < pages newsz → s.mapped w = true
  | .store false sz => s.sz ≤ sz ∧ sz ≤ kernbase ∧ ∀ w, w < pages sz → s.mapped w = true
  | .store true sz => sz ≤ s.sz ∧ ∀ w, w < pages sz → s.mapped w = true

structure Inv (s : State) : Prop where
  bound : s.sz ≤ kernbase
  once : ∀ t u, (s.pc t).grows = true → (s.pc u).grows = true → t = u
  apart : ∀ t u, (s.pc t).shrinks = true → (s.pc u).pointer = false
  mapped : (∀ t, (s.pc t).shrinks = false) → ∀ v, v < pages s.sz → s.mapped v = true
  knows : ∀ t, Knows s (s.pc t)

theorem Start.inv (h : Start s) : Inv s where
  bound := h.bound
  once := fun t u ht => by
    rw [h.user t] at ht
    cases ht
  apart := fun t u ht => by
    rw [h.user t] at ht
    cases ht
  mapped := fun _ => h.mapped
  knows := fun t => by
    rw [h.user t]
    trivial

theorem grows_of_shrinks (h : pc.shrinks = true) : pc.grows = true := by
  cases pc <;> simp_all [Pc.shrinks, Pc.grows]

theorem page_lt (h : x < sz) : x / pgsize < pages sz := by
  rw [pages]
  have hx := Nat.div_add_mod x pgsize
  have hmod := Nat.mod_lt x (show 0 < pgsize by decide)
  apply (Nat.le_div_iff_mul_le (by decide)).mpr
  rw [Nat.succ_mul]
  have hcomm : x / pgsize * pgsize = pgsize * (x / pgsize) := Nat.mul_comm _ _
  omega

/-- Inside a call with a pointer nothing is lost when the size does not go down
and the NUL stays. -/
theorem Knows.pointer (h : Knows s pc) (hpc : pc.pointer = true) (hsz : s.sz ≤ s'.sz)
    (hnul : ∀ x, x < s.sz → pc.nul = some x → s.byte x = 0 → s'.byte x = 0) : Knows s' pc := by
  match pc with
  | .fetchstr addr ep k => exact Nat.le_trans h hsz
  | .string addr len k =>
    obtain ⟨hk, hlt, hbyte⟩ := h
    exact ⟨hk, Nat.lt_of_lt_of_le hlt hsz, hnul _ hlt rfl hbyte⟩
  | .buffer addr size => exact fun i hi => Nat.lt_of_lt_of_le (h i hi) hsz
  | .user | .allocuvm _ _ _ | .undo _ _ _ | .deallocuvm _ _ _ | .store _ _ => cases hpc

theorem knows_user (hpointer : pc.pointer = false) (hgrows : pc.grows = false) : Knows s pc := by
  cases pc <;> trivial

theorem Knows.other (h : Knows s pc) (hpc : pc.grows = false) (hsz : s.sz ≤ s'.sz)
    (hnul : ∀ x, x < s.sz → pc.nul = some x → s.byte x = 0 → s'.byte x = 0) : Knows s' pc := by
  by_cases hpointer : pc.pointer = true
  · exact h.pointer hpointer hsz hnul
  · exact knows_user (by simpa using hpointer) hpc

theorem Knows.congr (h : Knows s pc) (hsz : s'.sz = s.sz) (hmapped : s'.mapped = s.mapped)
    (hbyte : s'.byte = s.byte) : Knows s' pc := by
  unfold Knows at h ⊢
  rw [hsz, hmapped, hbyte]
  exact h

theorem Knows.bytes (h : Knows s pc) {byte : Nat → UInt8}
    (hnul : ∀ x, pc.nul = some x → s.byte x = 0 → byte x = 0) :
    Knows { s with byte := byte } pc := by
  match pc with
  | .string addr len k => exact ⟨h.1, h.2.1, hnul _ rfl h.2.2⟩
  | .user | .fetchstr _ _ _ | .buffer _ _ | .allocuvm _ _ _ | .undo _ _ _ | .deallocuvm _ _ _
  | .store true _ | .store false _ => exact h

theorem Inv.bytes (h : Inv s) {byte : Nat → UInt8}
    (hnul : ∀ u x, (s.pc u).nul = some x → s.byte x = 0 → byte x = 0) :
    Inv { s with byte := byte } where
  bound := h.bound
  once := h.once
  apart := h.apart
  mapped := h.mapped
  knows := fun u => (h.knows u).bytes (hnul u)

theorem Inv.write (h : Inv s) {byte : UInt8} (hspares : sparesNul s x byte = true) :
    Inv { s with byte := update s.byte x byte } := by
  apply h.bytes
  intro u y hnul hzero
  by_cases hy : y = x
  · subst hy
    simp only [sparesNul, Bool.or_eq_true, beq_iff_eq, decide_eq_true_eq] at hspares
    rw [update_self]
    exact hspares.resolve_right fun hall => hall u hnul
  · rw [update_of_ne hy]
    exact hzero

theorem Inv.enter (h : Inv s) (hpc : s'.pc = s.pc) (hbound : s'.sz ≤ kernbase)
    (hother : ∀ u, u ≠ t → Knows s' (s.pc u)) (hknows : Knows s' pc)
    (hgrows : pc.grows = true → ∀ u, u ≠ t → (s.pc u).grows = false)
    (hshrinks : pc.shrinks = true → ∀ u, u ≠ t → (s.pc u).pointer = false)
    (hpointer : pc.pointer = true → ∀ u, u ≠ t → (s.pc u).shrinks = false)
    (hmapped : (∀ u, u ≠ t → (s.pc u).shrinks = false) → pc.shrinks = false →
      ∀ v, v < pages s'.sz → s'.mapped v = true) : Inv (s'.goto t pc) := by
  have hself : (s'.goto t pc).pc t = pc := by simp [State.goto]
  have hrest : ∀ u, u ≠ t → (s'.goto t pc).pc u = s.pc u := fun u hu => by
    simp [State.goto, hu, hpc]
  refine ⟨hbound, fun u w hu hw => ?_, fun u w hu => ?_, fun hnone v hv => ?_, fun u => ?_⟩
  · by_cases hut : u = t <;> by_cases hwt : w = t
    · rw [hut, hwt]
    · subst hut
      rw [hself] at hu
      rw [hrest w hwt, hgrows hu w hwt] at hw
      cases hw
    · subst hwt
      rw [hself] at hw
      rw [hrest u hut, hgrows hw u hut] at hu
      cases hu
    · rw [hrest u hut] at hu
      rw [hrest w hwt] at hw
      exact h.once u w hu hw
  · by_cases hut : u = t <;> by_cases hwt : w = t
    · subst hwt
      rw [hut, hself] at hu
      rw [hself]
      cases pc <;> first | rfl | cases hu
    · rw [hut, hself] at hu
      rw [hrest w hwt]
      exact hshrinks hu w hwt
    · rw [hrest u hut] at hu
      rw [hwt, hself]
      by_contra hp
      rw [hpointer (by simpa using hp) u hut] at hu
      cases hu
    · rw [hrest u hut] at hu
      rw [hrest w hwt]
      exact h.apart u w hu
  · apply hmapped
    · exact fun u hu => hrest u hu ▸ hnone u
    · exact hself ▸ hnone t
    · exact hv
  · by_cases hut : u = t
    · rw [hut, hself]
      exact hknows.congr rfl rfl rfl
    · rw [hrest u hut]
      exact (hother u hut).congr rfl rfl rfl

theorem Inv.move (h : Inv s) (hknows : Knows s pc)
    (hgrows : pc.grows = true → ∀ u, u ≠ t → (s.pc u).grows = false)
    (hshrinks : pc.shrinks = true → ∀ u, u ≠ t → (s.pc u).pointer = false)
    (hpointer : pc.pointer = true → ∀ u, u ≠ t → (s.pc u).shrinks = false)
    (hmapped : (s.pc t).shrinks = true → pc.shrinks = false →
      ∀ v, v < pages s.sz → s.mapped v = true) : Inv (s.goto t pc) := by
  apply h.enter rfl h.bound (fun u _ => h.knows u) hknows hgrows hshrinks hpointer
  intro hnone hpc v hv
  by_cases ht : (s.pc t).shrinks = true
  · exact hmapped ht hpc v hv
  · apply h.mapped _ v hv
    intro u
    by_cases hu : u = t
    · rw [hu]
      simpa using ht
    · exact hnone u hu

/-- To a position of `growproc` that takes no memory away, with all pages there. -/
theorem Inv.grow (h : Inv s) (hknows : Knows s pc) (hshrinks : pc.shrinks = false)
    (hpointer : pc.pointer = false) (hquiet : ∀ u, u ≠ t → (s.pc u).grows = false)
    (hmapped : ∀ v, v < pages s.sz → s.mapped v = true) : Inv (s.goto t pc) := by
  apply h.move hknows
  · exact fun _ => hquiet
  · simp [hshrinks]
  · simp [hpointer]
  · exact fun _ _ => hmapped

/-- To a position outside `growproc`, from one that has not shrunk the memory. -/
theorem Inv.leave (h : Inv s) (hknows : Knows s pc) (hgrows : pc.grows = false)
    (hpointer : pc.pointer = true → ∀ u, u ≠ t → (s.pc u).shrinks = false)
    (ht : (s.pc t).shrinks = false) : Inv (s.goto t pc) := by
  apply h.move hknows
  · simp [hgrows]
  · intro hshrinks
    rw [grows_of_shrinks hshrinks] at hgrows
    cases hgrows
  · exact hpointer
  · simp [ht]

theorem uint_eq {n : Int} (hlo : 0 ≤ n) (hhi : n < 0x100000000) : uint n = n.toNat := by
  rw [uint, Int.emod_eq_of_lt hlo hhi]

theorem knows_buffer (h : Inv s) (hint : isInt size) (hsign : 0 ≤ size) (hlt : addr < s.sz)
    (hsize : uint (addr + size) ≤ s.sz) : Knows s (.buffer addr size) := by
  intro i hi
  have hbound : s.sz ≤ 0x80000000 := h.bound
  have hhi := hint.2
  rw [uint_eq (by omega) (by omega)] at hsize hi ⊢
  omega

theorem Inv.quiet (h : Inv s) (ht : (s.pc t).grows = true) : ∀ u, u ≠ t → (s.pc u).grows =
    false := by
  intro u hu
  by_contra hgrows
  exact hu (h.once u t (by simpa using hgrows) ht)

theorem Inv.no_shrinks (h : Inv s) (ht : (s.pc t).pointer = true) (u : Thread) :
    (s.pc u).shrinks = false := by
  by_contra hshrinks
  rw [h.apart u t (by simpa using hshrinks)] at ht
  cases ht

theorem not_shrinks (h : pc.grows = false) : pc.shrinks = false := by
  by_contra hshrinks
  rw [grows_of_shrinks (by simpa using hshrinks)] at h
  cases h

theorem inv_growproc (h : Inv s) (hint : isInt n) (hcalm : calm s (.sbrk t n) = true) :
    Inv (growproc s t n) := by
  simp only [calm, Bool.and_eq_true, Bool.or_eq_true, decide_eq_true_eq] at hcalm
  obtain ⟨⟨hgrows, hpointer⟩, hall⟩ := hcalm
  have hmapped := h.mapped fun u => not_shrinks (hgrows u)
  have hbound : s.sz ≤ 0x80000000 := h.bound
  have hsame : Inv (s.goto t (.store false s.sz)) :=
    h.grow ⟨Nat.le_refl _, h.bound, hmapped⟩ rfl rfl (fun u _ => hgrows u) hmapped
  simp only [growproc]
  split
  · split
    · exact h
    · split
      · exact hsame
      · exact h.grow ⟨rfl, by omega, by omega, Nat.le_refl _, hmapped⟩ rfl rfl
          (fun u _ => hgrows u) hmapped
  · split
    · rename_i hneg
      split
      · exact hsame
      · rename_i hlt
        have hle : pages (uint (s.sz + n)) ≤ pages s.sz := pages_mono (by omega)
        have hzero : uint (s.sz + n) ≠ 0 := by
          have hlo := hint.1
          rw [uint]
          omega
        apply h.move
        · exact ⟨rfl, by omega, hzero, Nat.le_refl _, fun w hw => hmapped w (by omega)⟩
        · exact fun _ u _ => hgrows u
        · exact fun _ u _ => hpointer.resolve_left (by omega) u
        · exact fun hp => by cases hp
        · exact fun _ _ => hmapped
    · exact hsame

theorem inv_allocPage (h : Inv s) (hpc : s.pc t = .allocuvm oldsz newsz v) {kalloc : Bool}
    (hpage : allocPage s t oldsz newsz v kalloc true = some s') : Inv s' := by
  have hknows := h.knows t
  rw [hpc] at hknows
  obtain ⟨rfl, hle, hbound, hv, hmapped⟩ := hknows
  have hquiet := h.quiet (t := t) (by rw [hpc]; rfl)
  simp only [allocPage, Bool.true_eq_false, if_false] at hpage
  split at hpage
  · split at hpage
    · cases hpage
      exact h.grow ⟨rfl, Nat.le_refl _⟩ rfl rfl hquiet fun w hw => hmapped w (by omega)
    · obtain ⟨_, hpage⟩ := Option.ite_none_left_eq_some.mp hpage
      cases hpage
      have hnew : ∀ w, w < v + 1 → update s.mapped v true w = true := by
        intro w hw
        by_cases hwv : w = v
        · rw [hwv, update_self]
        · rw [update_of_ne hwv]
          exact hmapped w (by omega)
      apply h.enter
      · rfl
      · exact h.bound
      · intro u hu
        apply (h.knows u).other (hquiet u hu)
        · exact Nat.le_refl _
        intro x hx _ hzero
        have hpage := page_lt hx
        simp only [if_neg (show x / pgsize ≠ v by omega)]
        exact hzero
      · exact ⟨rfl, hle, hbound, by omega, hnew⟩
      · exact fun _ => hquiet
      · exact fun hshrinks => by cases hshrinks
      · exact fun hp => by cases hp
      · exact fun _ _ w hw => hnew w (by simp only at hw; omega)
  · cases hpage
    exact h.grow ⟨hle, hbound, fun w hw => hmapped w (by omega)⟩ rfl rfl hquiet
      fun w hw => hmapped w (by omega)

theorem unmapPage_some {table : Bool} {next : State × Nat} (h : unmapPage s v table = some next) :
    next.1.sz = s.sz ∧ next.1.byte = s.byte ∧ next.1.pc = s.pc ∧ v ≤ next.2 ∧
      ∀ w, w ≠ v → next.1.mapped w = s.mapped w := by
  simp only [unmapPage] at h
  split at h
  · obtain ⟨_, h⟩ := Option.ite_none_left_eq_some.mp h
    cases h
    exact ⟨rfl, rfl, rfl, Nat.le_add_right _ _, fun _ _ => rfl⟩
  · cases h
    exact ⟨rfl, rfl, rfl, Nat.le_add_right _ _, fun w hw => update_of_ne hw _ _⟩

theorem inv_unmap (h : Inv s) {table : Bool} (hstep : step s (.unmap t table) = some s') :
    Inv s' := by
  have hknows := h.knows t
  simp only [step] at hstep
  split at hstep
  · rename_i oldsz newsz v hpc
    rw [hpc] at hknows
    obtain ⟨rfl, hv⟩ := hknows
    have hquiet := h.quiet (t := t) (by rw [hpc]; rfl)
    split at hstep
    · obtain ⟨next, hnext, rfl⟩ := Option.map_eq_some_iff.mp hstep
      obtain ⟨hsz, hbyte, hpc', hle, hmapped⟩ := unmapPage_some hnext
      apply h.enter hpc'
      · rw [hsz]
        exact h.bound
      · intro u hu
        exact (h.knows u).other (hquiet u hu) (Nat.le_of_eq hsz.symm) fun x _ _ hzero => by
          rw [hbyte, hzero]
      · exact ⟨hsz.symm, by omega⟩
      · exact fun _ => hquiet
      · exact fun hshrinks => by cases hshrinks
      · exact fun hp => by cases hp
      · intro hnone _ w hw
        rw [hsz] at hw
        rw [hmapped w (by omega)]
        apply h.mapped _ w hw
        intro u
        by_cases hu : u = t
        · rw [hu, hpc]
          rfl
        · exact hnone u hu
    · cases hstep
      exact h.leave trivial rfl (fun hp => by cases hp) (by rw [hpc]; rfl)
  · rename_i oldsz newsz v hpc
    rw [hpc] at hknows
    obtain ⟨rfl, hlt, hzero, hv, hmapped⟩ := hknows
    have hquiet := h.quiet (t := t) (by rw [hpc]; rfl)
    have hpointer : ∀ u, u ≠ t → (s.pc u).pointer = false := fun u _ =>
      h.apart t u (by rw [hpc]; rfl)
    split at hstep
    · obtain ⟨next, hnext, rfl⟩ := Option.map_eq_some_iff.mp hstep
      obtain ⟨hsz, hbyte, hpc', hle, hsame⟩ := unmapPage_some hnext
      apply h.enter hpc'
      · rw [hsz]
        exact h.bound
      · intro u hu
        exact (h.knows u).other (hquiet u hu) (Nat.le_of_eq hsz.symm) fun x _ _ hzero => by
          rw [hbyte, hzero]
      · exact ⟨hsz.symm, hlt, hzero, by omega, fun w hw => by
          rw [hsame w (by omega), hmapped w hw]⟩
      · exact fun _ => hquiet
      · exact fun _ => hpointer
      · exact fun hp => by cases hp
      · exact fun _ hshrinks => by cases hshrinks
    · cases hstep
      apply h.move
      · exact ⟨by omega, hmapped⟩
      · exact fun _ => hquiet
      · exact fun _ => hpointer
      · exact fun hp => by cases hp
      · exact fun _ hshrinks => by cases hshrinks
  · cases hstep

theorem inv_setSz (h : Inv s) {shrinks : Bool} (hpc : s.pc t = .store shrinks sz) :
    Inv ({ s with sz := sz }.goto t .user) := by
  have hknows := h.knows t
  rw [hpc] at hknows
  have hquiet := h.quiet (t := t) (by rw [hpc]; cases shrinks <;> rfl)
  cases shrinks with
  | false =>
    obtain ⟨hle, hbound, hmapped⟩ := hknows
    apply h.enter
    · rfl
    · exact hbound
    · exact fun u hu => (h.knows u).other (hquiet u hu) hle fun _ _ _ hzero => hzero
    · trivial
    · exact fun hgrows => by cases hgrows
    · exact fun hshrinks => by cases hshrinks
    · exact fun hp => by cases hp
    · exact fun _ _ => hmapped
  | true =>
    obtain ⟨hle, hmapped⟩ := hknows
    apply h.enter
    · rfl
    · exact Nat.le_trans hle h.bound
    · intro u hu
      exact knows_user (h.apart t u (by rw [hpc]; rfl)) (hquiet u hu)
    · trivial
    · exact fun hgrows => by cases hgrows
    · exact fun hshrinks => by cases hshrinks
    · exact fun hp => by cases hp
    · exact fun _ _ => hmapped

theorem inv_step {a : Act} (h : Inv s) (hcalm : calm s a = true) (hstep : step s a = some s') :
    Inv s' := by
  cases a with
  | argstr t addr =>
    have hquiet : ∀ u, (s.pc u).shrinks = false := of_decide_eq_true hcalm
    simp only [step] at hstep
    split at hstep
    · split at hstep <;> cases hstep
      · exact h
      · exact h.leave (Nat.le_refl s.sz) rfl (fun _ u _ => hquiet u) (hquiet t)
    · cases hstep
  | argptr t addr size =>
    simp only [calm, Bool.and_eq_true, decide_eq_true_eq] at hcalm
    obtain ⟨hsign, hquiet⟩ := hcalm
    simp only [step] at hstep
    split at hstep
    · obtain ⟨hint, hstep⟩ := Option.ite_none_right_eq_some.mp hstep
      split at hstep <;> cases hstep
      · exact h
      · rename_i hcheck
        rw [not_or] at hcheck
        exact h.leave (knows_buffer h hint hsign (by omega) (by omega)) rfl (fun _ u _ => hquiet u)
          (hquiet t)
    · cases hstep
  | scan t =>
    simp only [step] at hstep
    split at hstep
    · rename_i addr ep k hpc
      have hep : ep ≤ s.sz := by
        have hknows := h.knows t
        rw [hpc] at hknows
        exact hknows
      have hshrinks : ∀ u, (s.pc u).shrinks = false := h.no_shrinks (by rw [hpc]; rfl)
      split at hstep
      · split at hstep <;> cases hstep
        · rename_i hzero
          exact h.leave ⟨Nat.zero_le k, by omega, hzero⟩ rfl (fun _ u _ => hshrinks u) (hshrinks t)
        · exact h.leave hep rfl (fun _ u _ => hshrinks u) (hshrinks t)
      · cases hstep
        exact h.leave trivial rfl (fun _ u _ => hshrinks u) (hshrinks t)
    · cases hstep
  | read t =>
    simp only [step] at hstep
    split at hstep
    · rename_i addr len k hpc
      cases hstep
      have hknows := h.knows t
      rw [hpc] at hknows
      obtain ⟨hk, hlt, hnul⟩ := hknows
      have hshrinks : ∀ u, (s.pc u).shrinks = false := h.no_shrinks (by rw [hpc]; rfl)
      refine h.leave ⟨?_, hlt, hnul⟩ rfl (fun _ u _ => hshrinks u) (hshrinks t)
      split
      · exact Nat.zero_le len
      · rename_i hbyte
        have hne : k ≠ len := fun heq => hbyte (heq ▸ hnul)
        omega
    · cases hstep
  | access t i write =>
    simp only [step] at hstep
    split at hstep
    · rename_i addr size hpc
      obtain ⟨_, rfl⟩ := taken hstep
      cases write with
      | none => exact h
      | some byte =>
        simp only [calm, hpc] at hcalm
        exact h.write hcalm
    · cases hstep
  | done t =>
    simp only [step] at hstep
    split at hstep
    · rename_i hpc
      cases hstep
      exact h.leave trivial rfl (fun hp => by cases hp) (by rw [hpc]; rfl)
    · rename_i hpc
      cases hstep
      exact h.leave trivial rfl (fun hp => by cases hp) (by rw [hpc]; rfl)
    · cases hstep
  | sbrk t n =>
    simp only [step] at hstep
    split at hstep
    · obtain ⟨hint, rfl⟩ := taken hstep
      exact inv_growproc h hint hcalm
    · cases hstep
  | page t kalloc table =>
    obtain rfl : table = true := hcalm
    simp only [step] at hstep
    split at hstep
    · rename_i hpc
      exact inv_allocPage h hpc hstep
    · cases hstep
  | unmap t table => exact inv_unmap h hstep
  | setSz t =>
    simp only [step] at hstep
    split at hstep
    · rename_i hpc
      cases hstep
      exact inv_setSz h hpc
    · cases hstep
  | poke t x byte =>
    simp only [step] at hstep
    split at hstep
    · obtain ⟨_, rfl⟩ := taken hstep
      exact h.write hcalm
    · cases hstep

theorem Inv.inUser {a : Act} (h : Inv s) : InUser s a s' := by
  have hbelow : ∀ t x, (s.pc t).pointer = true → x < s.sz →
      x < s.sz ∧ s.mapped (x / pgsize) = true := fun t x hpc hx =>
    ⟨hx, h.mapped (h.no_shrinks hpc) _ (page_lt hx)⟩
  intro x hx
  cases a with
  | scan t =>
    simp only [accessed] at hx
    split at hx
    · rename_i hpc
      obtain ⟨hlt, rfl⟩ := taken hx
      have hknows := h.knows t
      rw [hpc] at hknows
      exact hbelow t _ (by rw [hpc]; rfl) (Nat.lt_of_lt_of_le hlt hknows)
    · cases hx
  | read t =>
    simp only [accessed] at hx
    split at hx
    · rename_i hpc
      cases hx
      have hknows := h.knows t
      rw [hpc] at hknows
      obtain ⟨hk, hlt, _⟩ := hknows
      exact hbelow t _ (by rw [hpc]; rfl) (by omega)
    · cases hx
  | access t i write =>
    simp only [accessed] at hx
    split at hx
    · rename_i hpc
      obtain ⟨hi, rfl⟩ := taken hx
      have hknows := h.knows t
      rw [hpc] at hknows
      exact hbelow t _ (by rw [hpc]; rfl) (hknows i hi)
    · cases hx
  | argstr | argptr | done | sbrk | page | unmap | setSz | poke => cases hx

theorem Inv.terminated (h : Inv s) : Terminated s := by
  intro t addr len k hpc
  have hknows := h.knows t
  rw [hpc] at hknows
  exact ⟨len, hknows.2⟩

/-- In every run from a whole address space that meets the condition, the kernel
uses checked pointers only for mapped memory below the size, and accepted strings
stay terminated. -/
theorem checked_pointers_stay_valid (start final : State) (labels : List Act) (hstart : Start start)
    (hcalm : Meets step (fun s a => calm s a = true) start labels)
    (hrun : run step start labels = some final) :
    Along step InUser start labels ∧ Terminated final := by
  have hstep : ∀ s a next, Inv s → calm s a = true → step s a = some next → Inv next :=
    fun _ _ _ h hcalm hstep => inv_step h hcalm hstep
  refine ⟨along_of_invariant (fun s a next h hcalm hstep => ?_) hstart.inv hcalm,
    (run_invariant hstep hstart.inv hcalm hrun).terminated⟩
  exact ⟨inv_step h hcalm hstep, h.inUser⟩

def twoPages : State where
  sz := 8192
  mapped := fun v => decide (v < 2)
  byte := fun x => if x = 101 then 0 else 97
  pc := fun _ => .user

theorem start_twoPages : Start twoPages where
  bound := by decide
  user := fun _ => rfl
  mapped := fun v hv => by
    have hlt : v < 2 := hv
    simpa [twoPages] using hlt

/-- A string is accepted; another thread lets the memory grow and changes a byte
before the NUL, and gives the new page back when the call has returned. -/
def grownUnderString : List Act :=
  [.argstr thread0 100, .scan thread0, .scan thread0, .sbrk thread1 4096, .page thread1 true true,
    .read thread0, .page thread1 true true, .setSz thread1, .poke thread1 100 98, .read thread0,
    .done thread0, .sbrk thread1 (-4096), .unmap thread1 true, .unmap thread1 true, .setSz thread1,
    .argptr thread0 8000 192, .access thread0 191 (some 0)]

theorem checked_pointers_stay_valid_grown :
    ∃ final, run step twoPages grownUnderString = some final ∧ final.sz = 8192 ∧
      Along step InUser twoPages grownUnderString ∧ Terminated final := by
  obtain ⟨final, hrun, hsz⟩ : ∃ final, run step twoPages grownUnderString = some final ∧
      final.sz = 8192 := by
    decide +kernel
  exact ⟨final, hrun, hsz, checked_pointers_stay_valid twoPages final grownUnderString
    start_twoPages (by decide +kernel) hrun⟩

/-- A buffer of a negative length ends behind the size, another thread gives back the page
of an accepted buffer, or overwrites the NUL of an accepted string. -/
theorem checked_pointer_invalidated : Start twoPages ∧
      (run step twoPages [.argptr thread0 8191 (-1)]).map (fun s =>
        (accessed s (.access thread0 1 none), s.sz)) = some (some 8192, 8192) ∧
      (run step twoPages [.argptr thread0 4096 10, .sbrk thread1 (-4096), .unmap thread1 true,
        .unmap thread1 true, .setSz thread1]).map (fun s =>
          (accessed s (.access thread0 0 none), s.sz, s.mapped 1)) = some (some 4096, 4096, false) ∧
      ∃ final, run step twoPages [.argstr thread0 100, .scan thread0, .scan thread0,
        .poke thread1 101 97] = some final ∧ ¬ Terminated final := by
  refine ⟨start_twoPages, by decide +kernel, by decide +kernel, ?_⟩
  obtain ⟨final, hrun, hpc, hsz, hbyte⟩ : ∃ final, run step twoPages [.argstr thread0 100,
      .scan thread0, .scan thread0, .poke thread1 101 97] = some final ∧
      final.pc thread0 = .string 100 1 0 ∧ final.sz = 8192 ∧
      ((List.range 8192).all fun x => final.byte x != 0) = true := by
    decide +kernel
  simp only [List.all_eq_true, List.mem_range, bne_iff_ne] at hbyte
  refine ⟨final, hrun, fun hterminated => ?_⟩
  obtain ⟨j, hj, hzero⟩ := hterminated thread0 100 1 0 hpc
  exact hbyte _ (hsz ▸ hj) hzero

end Xv6.UserPointer
