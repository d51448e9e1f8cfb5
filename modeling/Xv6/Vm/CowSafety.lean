import Xv6.Lib.Transition
import Xv6.Vm.Invariant

/-! No page is free and mapped at the same time. `deallocuvm` and `freevm` do not
look at `page_counters`, so the calls that use them must not meet shared pages, and
`cow_fork` must not run out of memory between two page tables. -/
namespace Xv6.Vm
open Ledger Transition

/-- No page on the free list is mapped by a process, and none is on it twice. -/
def FreeSafe (s : Machine) : Prop :=
  s.mem.freelist.Nodup ∧
    ∀ p d v q, (s.procs p).state ≠ .unused → (s.procs p).pgdir = some d → v < upages →
      d.maps v = some q → q ∉ s.mem.freelist

/-- A segment that wraps around would be loaded over the kernel half, which the
model does not have. -/
def Image.NoWrap (img : Image) : Prop :=
  ∀ ph, some ph ∈ img.phdrs → ph.load = true → ph.vaddr + ph.memsz < wordSize

/-- The conditions under which the calls that free pages do so rightly. -/
def CowGuard (s : Machine) : Slot × Act → Prop
  | (p, .cowFork) => RoomToShare (s.mem.freelist.length - 1) (s.procs p).sz
  | (p, .wait) =>
    ∀ c d, s.zombieChild p = some c → (s.procs c).pgdir = some d → Unshared s.mapped d 0 upages
  | (p, .exec img) =>
    img.NoWrap ∧ ((∃ result m, loadImage s.mem img = some (some result, m)) →
      ∀ d, (s.procs p).pgdir = some d → Unshared s.mapped d 0 upages)
  | (p, .sbrk n) =>
    let sz := (s.procs p).sz
    let newsz := grownSize sz n
    ∀ d, (s.procs p).pgdir = some d →
      (0 < n → newsz < kernbase → Unshared s.mapped d (pages sz) (pages newsz)) ∧
      (n < 0 → Unshared s.mapped d (pages newsz) (pages sz))
  | _ => True

theorem inv_step {read : ℤ → ℤ} {valid : Nat → Prop} [Reading read] {s next : Machine}
    {label : Slot × Act} (h : Inv read valid s) (hguard : CowGuard s label)
    (hstep : step s label = some next) : Inv read valid next := by
  obtain ⟨p, a⟩ := label
  obtain ⟨hstate, out, hact⟩ := step_cases hstep
  cases a with
  | fork => exact inv_fork h hstate hact
  | cowFork => exact inv_cowFork h hstate (fun _ => hguard) hact
  | exit =>
    obtain ⟨s1, hexit, hresult⟩ := Option.map_eq_some_iff.mp hact
    cases hresult
    exact inv_exit h hexit
  | wait => exact inv_wait h hguard hact
  | cowWait => exact inv_cowWait h hact
  | exec img => exact inv_exec h hguard.2 hact
  | sbrk n =>
    exact inv_growproc h (fun hpos _ d hd => (hguard d hd).1 hpos)
      (fun hneg d hd => (hguard d hd).2 hneg) hact
  | load va => exact inv_load h hact
  | store va byte => exact inv_store h hact

theorem Inv.freeSafe {read : ℤ → ℤ} {valid : Nat → Prop} {s : Machine} (h : Inv read valid s) :
    FreeSafe s := by
  refine ⟨h.books.nodup, ?_⟩
  intro p d v q _ hd hv hmaps
  exact h.books.not_free_of_shared (maps_le_mapped hd hv hmaps)

/-- Copy-on-write memory safety: from boot on, in every run whose steps meet the
guard, no page is free and mapped, whatever `kalloc` returns. -/
theorem cow_memory_safety {m : Mem} {init : Page} {start final : Machine}
    {labels : List (Slot × Act)} (hnodup : m.freelist.Nodup) (hzero : ∀ q, m.counters q = 0)
    (hboot : userinit m init = some start) (hguard : Meets step CowGuard start labels)
    (hrun : run step start labels = some final) : FreeSafe final := by
  have hstart : Inv effective (fun _ => True) start :=
    inv_userinit hnodup hzero (fun _ _ => trivial) hboot
  exact (run_invariant (fun _ _ _ h hguard hstep => inv_step h hguard hstep) hstart hguard
    hrun).freeSafe

def sharedThenWritten : List (Slot × Act) :=
  [(slot0, .cowFork), (slot1, .store 7 65), (slot1, .store 7 65), (slot1, .load 7), (slot1, .exit),
  (slot0, .cowWait)]

theorem cow_memory_safety_shared_then_written :
    ∃ start final, userinit smallMem zeroPage = some start ∧
      run step start sharedThenWritten = some final ∧ FreeSafe final := by
  obtain ⟨start, hboot, hroom, hrun⟩ : ∃ start, userinit smallMem zeroPage = some start ∧
      RoomToShare (start.mem.freelist.length - 1) (start.procs 0).sz ∧
      (run step start sharedThenWritten).isSome := by
    decide +kernel
  obtain ⟨final, hfinal⟩ := Option.isSome_iff_exists.mp hrun
  refine ⟨start, final, hboot, hfinal, cow_memory_safety List.nodup_range' (fun _ => rfl) hboot ?_
    hfinal⟩
  refine ⟨hroom, fun _ _ => ⟨trivial, fun _ _ => ⟨trivial, fun _ _ => ⟨trivial, fun _ _ => ?_⟩⟩⟩⟩
  exact ⟨trivial, fun _ _ => ⟨trivial, fun _ _ => trivial⟩⟩

/-- A child shares its parent's page and gives it back with `sbrk(-4096)`. -/
def sharedThenShrunk : List (Slot × Act) :=
  [(slot0, .cowFork), (slot1, .sbrk (-4096))]

/-- The page is on the free list while the parent still has it mapped. -/
theorem free_page_still_mapped : ∃ start final, userinit smallMem zeroPage = some start ∧
      run step start sharedThenShrunk = some final ∧ ¬ FreeSafe final := by
  obtain ⟨start, hboot, final, hrun, hlive, hmaps, hfree⟩ :
      ∃ start, userinit smallMem zeroPage = some start ∧
        ∃ final, run step start sharedThenShrunk = some final ∧
          (final.procs 0).state = .runnable ∧
          ((final.procs 0).pgdir.bind fun d => d.maps 0) = some 1090 ∧
          final.mem.freelist.head? = some 1090 := by
    decide +kernel
  obtain ⟨d, hd, hmaps⟩ := Option.bind_eq_some_iff.mp hmaps
  refine ⟨start, final, hboot, hrun, fun hsafe => ?_⟩
  exact hsafe.2 0 d 0 1090 (by simp [hlive]) hd (by decide) hmaps (List.mem_of_head? hfree)

end Xv6.Vm
