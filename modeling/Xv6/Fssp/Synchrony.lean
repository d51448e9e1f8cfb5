import Mathlib.Data.Fintype.Option
import Xv6.Fssp.Program

/-! The threads of `fssp.c` compute the synchronous automaton. Each thread has
made a number of calls of `inc_barrier` that its position determines, and the
barrier keeps these numbers together; so whoever reads the state of a soldier
finds the state of the round that the reader is in. -/
namespace Xv6.Fssp
open Function Transition Mutex

def MainPc.inside : MainPc → Bool
  | .inStart | .inCompute | .inUpdate => true
  | _ => false

/-- The calls of `inc_barrier` that are over at a position in a round. -/
def MainPc.calls (round : Nat) : MainPc → Nat
  | .bannerLock | .bannerUnlock | .initBarrier | .initState _ | .create _ => 0
  | .storeTid _ _ | .storeIndex _ | .general | .callStart | .inStart => 0
  | .printLock first | .print first _ _ | .printUnlock first _ =>
    if first then 0 else 2 * round + 1
  | .callUpdate | .inUpdate => 2 * round + 2
  | _ => 2 * round + 1

def SoldierPc.inside : SoldierPc → Bool
  | .inStart | .inCompute _ _ | .inUpdate _ => true
  | _ => false

def SoldierPc.calls (round : Nat) : SoldierPc → Nat
  | .unborn | .callStart | .inStart => 0
  | .store _ _ | .callUpdate _ | .inUpdate _ => 2 * round + 2
  | _ => 2 * round + 1

/-- The step of the automaton that the soldier's state in memory belongs to. -/
def SoldierPc.stored (round : Nat) : SoldierPc → Nat
  | .callUpdate _ | .inUpdate _ => round + 1
  | _ => round

variable {n : Nat}

def State.inside (s : State n) : Thread n → Bool
  | none => s.main.inside
  | some t => (s.soldier t).inside

def State.calls (s : State n) : Thread n → Nat
  | none => s.main.calls (s.round none)
  | some t => (s.soldier t).calls (s.round (some t))

def At (b : Barrier.State (Thread n)) (t : Thread n) (inside : Bool) (calls : Nat) : Prop :=
  b.pc t = .out ∧ b.returned t = calls + inside.toNat ∨
    inside = true ∧ b.pc t ≠ .out ∧ b.returned t = calls

def MainPc.live : MainPc → Bool
  | .bannerLock | .bannerUnlock | .initBarrier | .deallocPrint | .exited => false
  | _ => true

def MainPc.prepared : MainPc → Bool
  | .bannerLock | .bannerUnlock | .initBarrier | .initState _ | .create _ => false
  | .storeTid _ _ | .storeIndex _ | .general => false
  | _ => true

def MainPc.created (n : Nat) : MainPc → Nat
  | .bannerLock | .bannerUnlock | .initBarrier => 0
  | .initState i | .create i => i
  | .storeTid i _ | .storeIndex i => i + 1
  | _ => n

def MainPc.printMx : MainPc → MxState
  | .bannerUnlock | .print _ _ _ | .printUnlock _ _ => .locked
  | .exited => .free
  | _ => .unlocked

/-- The lines of output that are complete. -/
def MainPc.printed (round : Nat) : MainPc → Nat
  | .bannerLock | .bannerUnlock | .initBarrier | .initState _ | .create _ => 0
  | .storeTid _ _ | .storeIndex _ | .general => 0
  | .printLock _ | .print _ _ _ | .printUnlock _ _ => round
  | _ => round + 1

def line (n k : Nat) : List Char := (List.range n).map fun i => symbol (cell n k i)

def Prepared (tid : Fin n → Int) (s : State n) (m : Nat) : Prop :=
  ∀ t : Fin n, t.val < m → (s.soldiers t).state = Q ∧ (s.soldiers t).tid = tid t

variable (tid : Fin n → Int) (time : Nat)

def MainOk (s : State n) (round : Nat) : MainPc → Prop
  | .bannerLock | .bannerUnlock | .initBarrier => round = 0
  | .initState i => round = 0 ∧ i ≤ n ∧ Prepared tid s i
  | .create i => round = 0 ∧ i < n ∧ Prepared tid s i ∧ (s.soldiers i).state = Q
  | .storeTid i id =>
    round = 0 ∧ Prepared tid s i ∧ (s.soldiers i).state = Q ∧ ∃ h : i < n, id = tid ⟨i, h⟩
  | .storeIndex i => round = 0 ∧ i < n ∧ Prepared tid s (i + 1)
  | .general => round = 0 ∧ Prepared tid s n
  | .printLock first => round ≤ time ∧ (first = true → round = 0)
  | .print first i text =>
    round ≤ time ∧ (first = true → round = 0) ∧ i ≤ n ∧ text = (line n round).take i
  | .printUnlock first text =>
    round ≤ time ∧ (first = true → round = 0) ∧ text = line n round
  | .callStart | .inStart => round = 0
  | .test => round ≤ time
  | .callCompute | .inCompute | .callUpdate | .inUpdate => round < time
  | .join i => round = time ∧ i ≤ n ∧ ∀ t : Fin n, t.val < i → s.soldier t = .exited
  | .killBarrier | .deallocPrint | .exited => round = time ∧ ∀ t, s.soldier t = .exited

def SoldierOk (n : Nat) (time : Nat) (t : Nat) (round : Nat) : SoldierPc → Prop
  | .unborn | .callStart | .inStart => round = 0
  | .find i => round = 0 ∧ i ≤ t
  | .noIndex => False
  | .test index => index = t ∧ round ≤ time
  | .loadCurr index => index = t ∧ round < time
  | .loadLeft index curr => index = t ∧ round < time ∧ curr = cell n round t
  | .loadRight index curr left =>
    index = t ∧ round < time ∧ curr = cell n round t ∧ left = leftCell n round t
  | .trans index curr left right =>
    index = t ∧ round < time ∧ curr = cell n round t ∧ left = leftCell n round t ∧
      right = cell n round (t + 1)
  | .callCompute index next | .inCompute index next | .store index next =>
    index = t ∧ round < time ∧ next = cell n (round + 1) t
  | .callUpdate index | .inUpdate index => index = t ∧ round < time
  | .exited => round = time

attribute [local simp] State.calls SoldierPc.inside State.setSoldier State.gotoSoldier
  SoldierPc.calls MainPc.calls MainPc.inside MainPc.live SoldierOk

structure Inv (s : State n) : Prop where
  barrier : s.main.live = true → Barrier.Inv s.barrier
  placed : ∀ t, At s.barrier t (s.inside t) (s.calls t)
  unborn : ∀ t : Fin n, s.soldier t = .unborn ↔ s.main.created n ≤ t.val
  memory : s.main.prepared = true → ∀ t : Fin n, (s.soldiers t).tid = tid t ∧
    (s.soldiers t).state = cell n ((s.soldier t).stored (s.round (some t))) t
  main : MainOk tid time s (s.round none) s.main
  soldier : ∀ t : Fin n, SoldierOk n time t (s.round (some t)) (s.soldier t)
  lines : s.lines = (List.range (s.main.printed (s.round none))).map (line n)
  printMx : s.printMx = s.main.printMx

theorem inv_boot (memory : Nat → Soldier) : Inv tid time (boot n memory) where
  barrier := by simp [boot]
  placed := by
    intro t
    left
    cases t <;> exact ⟨rfl, rfl⟩
  unborn := by simp [boot, MainPc.created]
  memory := by simp [boot, MainPc.prepared]
  main := rfl
  soldier := fun t => rfl
  lines := rfl
  printMx := rfl

variable {tid time} {s s' : State n} {t u : Thread n} {i j : Fin n}

/-- A thread outside the barrier and any other thread are in the same round of
calls. -/
theorem Inv.together (h : Inv tid time s) (hlive : s.main.live = true)
    (hout : s.inside t = false) :
    s.barrier.returned u ≤ s.calls t ∧
      s.calls t ≤ s.barrier.returned u + (if s.barrier.pc u = .out then 0 else 1) := by
  have hbarrier := h.barrier hlive
  have hle := hbarrier.returned_le u t
  have hge := hbarrier.returned_le t u
  rw [hbarrier.entered_eq] at hle hge
  rcases h.placed t with ⟨hpc, hcalls⟩ | ⟨hin, _⟩
  · simp only [hout, Bool.toNat_false, Nat.add_zero] at hcalls
    simp only [hpc, if_true, Nat.add_zero] at hle
    exact ⟨hcalls ▸ hle, hcalls ▸ hge⟩
  · simp [hout] at hin

variable {k : Nat}

/-- Where a soldier is when some thread is between two rounds: its state in
memory is that of the round, and it is not about to store. -/
theorem stored_eq {b : Barrier.State (Thread n)} {pc : SoldierPc} {round : Nat}
    (hplaced : At b t pc.inside (pc.calls round)) (hok : SoldierOk n time i round pc)
    (hle : b.returned t ≤ 2 * k + 1)
    (hge : 2 * k + 1 ≤ b.returned t + (if b.pc t = .out then 0 else 1)) :
    pc.stored round = k ∧ ∀ index next, pc ≠ .store index next := by
  rcases hplaced with ⟨hpc, hcalls⟩ | ⟨hin, hpc, hcalls⟩
  · rw [hcalls] at hle hge
    cases pc <;> simp_all [SoldierPc.stored] <;> omega
  · rw [hcalls] at hle hge
    cases pc <;> simp_all [SoldierPc.stored] <;> omega

theorem stored_start {b : Barrier.State (Thread n)} {pc : SoldierPc} {round : Nat}
    (hplaced : At b t pc.inside (pc.calls round)) (hok : SoldierOk n time i round pc)
    (hle : b.returned t ≤ 0) :
    pc.stored round = 0 ∧ (pc = .unborn ∨ pc = .callStart ∨ pc = .inStart) := by
  rcases hplaced with ⟨hpc, hcalls⟩ | ⟨hin, hpc, hcalls⟩ <;> rw [hcalls] at hle <;>
    cases pc <;> simp_all [SoldierPc.stored]

theorem Inv.live_of_soldier (h : Inv tid time s) (hborn : s.soldier i ≠ .unborn)
    (hexited : s.soldier i ≠ .exited) : s.main.live = true := by
  have hunborn := (h.unborn i).not.mp hborn
  have hmain := h.main
  cases hpc : s.main with
  | bannerLock | bannerUnlock | initBarrier => simp [hpc, MainPc.created] at hunborn
  | deallocPrint | exited =>
    rw [hpc] at hmain
    exact absurd (hmain.2 i) hexited
  | _ => rfl

variable {pc : MainPc}

theorem MainPc.unprepared (h : pc.prepared ≠ true) (round : Nat) :
    pc.inside = false ∧ pc.calls round = 0 := by
  cases pc <;> simp [MainPc.prepared] at h ⊢

theorem Inv.prepared_of_calls (h : Inv tid time s) (hlive : s.main.live = true)
    (hout : s.inside t = false) (hcalls : 1 ≤ s.calls t) : s.main.prepared = true := by
  have hge := (h.together (u := none) hlive hout).2
  by_contra hprepared
  obtain ⟨hmain, hzero⟩ := MainPc.unprepared hprepared (s.round none)
  have hin : s.inside none = false := hmain
  have hnone : s.calls none = 0 := hzero
  rcases h.placed none with ⟨hpc, hreturned⟩ | ⟨hin', _⟩
  · simp only [hin, hnone, Bool.toNat_false, Nat.add_zero] at hreturned
    simp only [hpc, if_true, hreturned] at hge
    omega
  · simp [hin] at hin'

theorem Inv.reads (h : Inv tid time s) (hlive : s.main.live = true) (hout : s.inside t = false)
    (hcalls : s.calls t = 2 * k + 1) (j : Fin n) : (s.soldiers j).tid = tid j ∧ (s.soldiers j).state
    = cell n k j ∧
      ∀ index next, s.soldier j ≠ .store index next := by
  have hprepared := h.prepared_of_calls hlive hout (by omega)
  have htogether := h.together (u := some j) hlive hout
  rw [hcalls] at htogether
  have hstored := stored_eq (h.placed (some j)) (h.soldier j) htogether.1 htogether.2
  have hmemory := h.memory hprepared j
  rw [hstored.1] at hmemory
  exact ⟨hmemory.1, hmemory.2, hstored.2⟩

theorem mainOk_congr {round : Nat} (h : MainOk tid time s round pc)
    (hmemory : pc.prepared = true ∨ s'.soldiers = s.soldiers)
    (hexited : ∀ t, s.soldier t = .exited → s'.soldier t = .exited) :
    MainOk tid time s' round pc := by
  cases pc with
  | join i => exact ⟨h.1, h.2.1, fun t ht => hexited t (h.2.2 t ht)⟩
  | killBarrier | deallocPrint | exited => exact ⟨h.1, fun t => hexited t (h.2 t)⟩
  | initState | create | storeTid | storeIndex | general =>
    have hsame : s'.soldiers = s.soldiers := hmemory.resolve_left (by simp [MainPc.prepared])
    simpa only [MainOk, Prepared, hsame] using h
  | _ => exact h

theorem Inv.soldierMove (h : Inv tid time s) {pc : SoldierPc} (hmain : s'.main = s.main)
    (hlines : s'.lines = s.lines) (hprintMx : s'.printMx = s.printMx)
    (hsoldier : s'.soldier = update s.soldier i pc)
    (hround : ∀ u, u ≠ some i → s'.round u = s.round u)
    (hbarrier : s.main.live = true → Barrier.Inv s'.barrier)
    (hothers : ∀ u, u ≠ some i → s'.barrier.pc u = s.barrier.pc u ∧
      s'.barrier.returned u = s.barrier.returned u)
    (hplaced : At s'.barrier (some i) pc.inside (pc.calls (s'.round (some i))))
    (hborn : s.soldier i ≠ .unborn) (hborn' : pc ≠ .unborn) (hexited : s.soldier i ≠ .exited)
    (hmemory : s.main.prepared = true ∨ s'.soldiers = s.soldiers)
    (hother : ∀ j, j ≠ i → s'.soldiers j = s.soldiers j)
    (hself : s.main.prepared = true → (s'.soldiers i).tid = tid i ∧
      (s'.soldiers i).state = cell n (pc.stored (s'.round (some i))) i)
    (hok : SoldierOk n time i (s'.round (some i)) pc) : Inv tid time s' where
  barrier := by rwa [hmain]
  placed := by
    intro u
    by_cases hu : u = some i
    · subst hu
      simpa [State.inside, hsoldier] using hplaced
    · have hold := h.placed u
      cases u with
      | none =>
        simpa [At, State.inside, hmain, hround none (by simp), hothers none (by simp)]
          using hold
      | some j =>
        have hji : j ≠ i := fun heq => hu (heq ▸ rfl)
        simpa [At, State.inside, hsoldier, update_of_ne hji, hround _ hu, hothers _ hu] using hold
  unborn := by
    intro j
    rw [hsoldier, hmain]
    by_cases hji : j = i
    · subst hji
      rw [update_self, ← h.unborn j]
      exact iff_of_false hborn' hborn
    · rw [update_of_ne hji]
      exact h.unborn j
  memory := by
    rw [hmain]
    intro hprepared j
    by_cases hji : j = i
    · subst hji
      rw [hsoldier, update_self]
      exact hself hprepared
    · rw [hsoldier, update_of_ne hji, hother j hji, hround (some j) (by simpa using hji)]
      exact h.memory hprepared j
  main := by
    rw [hmain, hround none (by simp)]
    refine mainOk_congr h.main hmemory fun j hj => ?_
    have hji : j ≠ i := by
      rintro rfl
      exact hexited hj
    rw [hsoldier, update_of_ne hji, hj]
  soldier := by
    intro j
    by_cases hji : j = i
    · subst hji
      rwa [hsoldier, update_self]
    · rw [hsoldier, update_of_ne hji, hround (some j) (by simpa using hji)]
      exact h.soldier j
  lines := by
    rw [hlines, hmain, hround none (by simp)]
    exact h.lines
  printMx := by
    rw [hprintMx, hmain]
    exact h.printMx

theorem Inv.soldierLocal (h : Inv tid time s) {pc pc' : SoldierPc} (hpc : s.soldier i = pc)
    (hout : pc.inside = false) (hout' : pc'.inside = false)
    (hcalls : pc'.calls (s.round (some i)) = pc.calls (s.round (some i)))
    (hstored : pc'.stored (s.round (some i)) = pc.stored (s.round (some i)))
    (hborn : pc ≠ .unborn) (hborn' : pc' ≠ .unborn) (hexited : pc ≠ .exited)
    (hok : SoldierOk n time i (s.round (some i)) pc') : Inv tid time (s.gotoSoldier i pc') := by
  subst hpc
  refine h.soldierMove rfl rfl rfl rfl (fun _ _ => rfl) h.barrier (fun _ _ => ⟨rfl, rfl⟩) ?_ hborn
    hborn' hexited (.inr rfl) (fun _ _ => rfl) ?_ hok
  · have hplaced := h.placed (some i)
    simp only [State.inside, State.calls, hout] at hplaced
    simpa only [State.gotoSoldier, hout', hcalls] using hplaced
  · intro hprepared
    simp only [State.gotoSoldier, hstored]
    exact h.memory hprepared i

section

variable {b b' : Barrier.State (Thread n)} {calls : Nat}

theorem at_enter (h : At b t false calls) (hstep : Barrier.step b (.enter t) = some b') :
    At b' t true calls := by
  obtain ⟨_, hpc, hreturned⟩ := Barrier.step_enter hstep
  rcases h with ⟨_, hcalls⟩ | ⟨hin, _⟩
  · exact .inr ⟨rfl, by simp [hpc], hreturned.trans hcalls⟩
  · cases hin

theorem at_go (h : At b t true calls) (hpc : b.pc t ≠ .out)
    (hstep : Barrier.step b (.go t) = some b') : At b' t true calls := by
  rcases h with ⟨hout, _⟩ | ⟨_, _, hcalls⟩
  · exact absurd hout hpc
  · rcases (Barrier.step_go hstep).2 with ⟨hin, hreturned⟩ | ⟨hout, hreturned⟩
    · exact .inr ⟨rfl, hin, hreturned.trans hcalls⟩
    · exact .inl ⟨hout, by rw [hreturned, hcalls]; rfl⟩

theorem at_return (h : At b t true calls) (hpc : b.pc t = .out) : At b t false (calls + 1) := by
  rcases h with ⟨_, hcalls⟩ | ⟨_, hin, _⟩
  · exact .inl ⟨hpc, hcalls⟩
  · exact absurd hpc hin

end

section

variable (h : Inv tid time s)
include h

theorem Inv.soldierCall {pc pc' : SoldierPc} (hpc : s.soldier i = pc)
    (hstep : ((s.callBarrier (some i)).map fun next => next.gotoSoldier i pc') = some s')
    (hout : pc.inside = false) (hin : pc'.inside = true)
    (hcalls : pc'.calls (s.round (some i)) = pc.calls (s.round (some i)))
    (hstored : pc'.stored (s.round (some i)) = pc.stored (s.round (some i)))
    (hborn : pc ≠ .unborn) (hborn' : pc' ≠ .unborn) (hexited : pc ≠ .exited)
    (hok : SoldierOk n time i (s.round (some i)) pc') : Inv tid time s' := by
  subst hpc
  simp only [State.callBarrier, Option.map_map, Option.map_eq_some_iff] at hstep
  obtain ⟨b, hb, rfl⟩ := hstep
  have hplaced := h.placed (some i)
  simp only [State.inside, State.calls, hout] at hplaced
  refine h.soldierMove rfl rfl rfl rfl (fun _ _ => rfl) ?_ ?_ ?_ hborn hborn' hexited (.inr rfl)
    (fun _ _ => rfl) ?_ hok
  · intro hlive
    exact Barrier.inv_step (h.barrier hlive) hb
  · intro u hu
    exact Barrier.step_others hb hu
  · have hnext := at_enter hplaced hb
    simpa only [Function.comp_apply, State.gotoSoldier, hin, hcalls] using hnext
  · intro hprepared
    simp only [Function.comp_apply, State.gotoSoldier, hstored]
    exact h.memory hprepared i

theorem Inv.soldierInside {after : State n} {pc : SoldierPc} (hpc : s.soldier i = pc)
    (hstep : s.inBarrier (some i) after = some s') (hin : pc.inside = true)
    (hafter : s.barrier.pc (some i) = .out → Inv tid time after) : Inv tid time s' := by
  subst hpc
  unfold State.inBarrier at hstep
  split at hstep
  · rename_i hpc
    cases hstep
    exact hafter hpc
  · rename_i hpc
    obtain ⟨b, hb, rfl⟩ := Option.map_eq_some_iff.mp hstep
    have hplaced := h.placed (some i)
    simp only [State.inside, State.calls, hin] at hplaced
    have hborn : s.soldier i ≠ .unborn := by
      intro heq
      simp [heq] at hin
    have hexited : s.soldier i ≠ .exited := by
      intro heq
      simp [heq] at hin
    refine h.soldierMove rfl rfl rfl (update_eq_self i s.soldier).symm (fun _ _ => rfl) ?_
      ?_ ?_ hborn hborn hexited (.inr rfl) (fun _ _ => rfl) (fun hprepared => h.memory hprepared i)
      (h.soldier i)
    · intro hlive
      exact Barrier.inv_step (h.barrier hlive) hb
    · intro u hu
      exact Barrier.step_others hb hu
    · rw [hin]
      exact at_go hplaced hpc hb

theorem Inv.soldierReturn {pc pc' : SoldierPc} {round : Thread n → Nat}
    (hpc : s.soldier i = pc) (hdone : s.barrier.pc (some i) = .out) (hin : pc.inside = true)
    (hout : pc'.inside = false) (hround : ∀ u, u ≠ some i → round u = s.round u)
    (hcalls : pc'.calls (round (some i)) = pc.calls (s.round (some i)) + 1)
    (hstored : pc'.stored (round (some i)) = pc.stored (s.round (some i)))
    (hborn : pc' ≠ .unborn) (hok : SoldierOk n time i (round (some i)) pc') :
    Inv tid time ({ s with round := round }.gotoSoldier i pc') := by
  subst hpc
  have hplaced := h.placed (some i)
  simp only [State.inside, State.calls, hin] at hplaced
  refine h.soldierMove rfl rfl rfl rfl hround h.barrier (fun _ _ => ⟨rfl, rfl⟩) ?_ ?_ hborn ?_
    (.inr rfl) (fun _ _ => rfl) ?_ hok
  · have hnext := at_return hplaced hdone
    simpa only [State.gotoSoldier, hout, hcalls] using hnext
  · intro heq
    simp [heq] at hin
  · intro heq
    simp [heq] at hin
  · intro hprepared
    simp only [State.gotoSoldier, hstored]
    exact h.memory hprepared i

theorem inv_store {index : Nat} {next : Int}
    (hpc : s.soldier i = .store index next) :
    Inv tid time ((s.setSoldier index { s.soldiers index with state := next }).gotoSoldier i
      (.callUpdate index)) := by
  have hok := h.soldier i
  rw [hpc] at hok
  obtain ⟨rfl, hlt, hnext⟩ := hok
  have hlive := h.live_of_soldier (i := i) (by simp [hpc]) (by simp [hpc])
  have hplaced := h.placed (some i)
  simp only [State.inside, State.calls, hpc, SoldierPc.inside, SoldierPc.calls] at hplaced
  have hprepared : s.main.prepared = true := by
    refine h.prepared_of_calls (t := some i) hlive ?_ ?_
    · simp [State.inside, hpc]
    · simp [hpc]
  refine h.soldierMove rfl rfl rfl rfl (fun _ _ => rfl) h.barrier (fun _ _ => ⟨rfl, rfl⟩) hplaced
    (by simp [hpc]) (by simp) (by simp [hpc]) (.inl hprepared) ?_ ?_ ⟨rfl, hlt⟩
  · intro j hji
    exact update_of_ne (fun heq => hji (Fin.ext heq)) _ _
  · intro _
    simp only [State.gotoSoldier, State.setSoldier, update_self]
    exact ⟨(h.memory hprepared i).1, hnext⟩

theorem Inv.mainMove (hmain : s'.main = pc)
    (hsoldier : s'.soldier = s.soldier) (hround : ∀ j, s'.round (some j) = s.round (some j))
    (hbarrier : pc.live = true → Barrier.Inv s'.barrier)
    (hothers : ∀ j, s'.barrier.pc (some j) = s.barrier.pc (some j) ∧
      s'.barrier.returned (some j) = s.barrier.returned (some j))
    (hplaced : At s'.barrier none pc.inside (pc.calls (s'.round none)))
    (hcreated : pc.created n = s.main.created n)
    (hmemory : pc.prepared = true → ∀ t : Fin n, (s'.soldiers t).tid = tid t ∧
      (s'.soldiers t).state = cell n ((s.soldier t).stored (s.round (some t))) t)
    (hok : MainOk tid time s' (s'.round none) pc)
    (hlines : s'.lines = (List.range (pc.printed (s'.round none))).map (line n))
    (hprintMx : s'.printMx = pc.printMx) : Inv tid time s' where
  barrier := by rwa [hmain]
  placed := by
    intro u
    cases u with
    | none => simpa [State.inside, hmain] using hplaced
    | some j =>
      have hold := h.placed (some j)
      simpa [At, State.inside, hsoldier, hround j, hothers j] using hold
  unborn := by
    intro j
    rw [hsoldier, hmain, hcreated]
    exact h.unborn j
  memory := by
    intro hprepared t
    rw [hsoldier, hround]
    exact hmemory (by rwa [hmain] at hprepared) t
  main := by rwa [hmain]
  soldier := by
    intro j
    rw [hsoldier, hround]
    exact h.soldier j
  lines := by rwa [hmain]
  printMx := by rwa [hmain]

theorem Inv.mainLocal {pc' : MainPc} (hpc : s.main = pc) {mx : MxState}
    {lines : List (List Char)} (hout : pc.inside = false) (hout' : pc'.inside = false)
    (hcalls : pc'.calls (s.round none) = pc.calls (s.round none))
    (hlive : pc'.live = true → pc.live = true) (hcreated : pc'.created n = pc.created n)
    (hprepared : pc'.prepared = true → pc.prepared = true)
    (hok : MainOk tid time s (s.round none) pc')
    (hlines : lines = (List.range (pc'.printed (s.round none))).map (line n))
    (hmx : mx = pc'.printMx) :
    Inv tid time { s with main := pc', printMx := mx, lines := lines } := by
  subst hpc
  have hplaced := h.placed none
  simp only [State.inside, State.calls, hout] at hplaced
  refine h.mainMove rfl rfl (fun _ => rfl) (fun hl => h.barrier (hlive hl)) (fun _ => ⟨rfl, rfl⟩) ?_
    hcreated (fun hp => h.memory (hprepared hp)) (mainOk_congr hok (.inr rfl) fun _ ht => ht) hlines
    hmx
  simpa only [hout', hcalls] using hplaced

theorem Inv.mainCall {pc' : MainPc} (hpc : s.main = pc)
    (hstep : ((s.callBarrier none).map fun next => { next with main := pc' }) = some s')
    (hout : pc.inside = false) (hin : pc'.inside = true)
    (hcalls : pc'.calls (s.round none) = pc.calls (s.round none)) (hlive : pc.live = true)
    (hcreated : pc'.created n = pc.created n) (hprepared : pc.prepared = true)
    (hok : MainOk tid time s (s.round none) pc')
    (hprinted : pc'.printed (s.round none) = pc.printed (s.round none))
    (hmx : pc'.printMx = pc.printMx) : Inv tid time s' := by
  subst hpc
  simp only [State.callBarrier, Option.map_map, Option.map_eq_some_iff] at hstep
  obtain ⟨b, hb, rfl⟩ := hstep
  have hplaced := h.placed none
  simp only [State.inside, State.calls, hout] at hplaced
  refine h.mainMove rfl rfl (fun _ => rfl) (fun _ => Barrier.inv_step (h.barrier hlive) hb)
    (fun j => Barrier.step_others hb (by simp [Barrier.Act.thread])) ?_ hcreated
    (fun _ => h.memory hprepared) (mainOk_congr hok (.inr rfl) fun _ ht => ht) ?_ ?_
  · have hnext := at_enter hplaced hb
    simpa only [Function.comp_apply, hin, hcalls] using hnext
  · simpa only [Function.comp_apply, hprinted] using h.lines
  · simpa only [Function.comp_apply, hmx] using h.printMx

theorem Inv.mainInside (hpc : s.main = pc) {after : State n}
    (hstep : s.inBarrier none after = some s') (hin : pc.inside = true)
    (hlive : pc.live = true) (hafter : s.barrier.pc none = .out → Inv tid time after) :
    Inv tid time s' := by
  subst hpc
  unfold State.inBarrier at hstep
  split at hstep
  · rename_i hpc
    cases hstep
    exact hafter hpc
  · rename_i hpc
    obtain ⟨b, hb, rfl⟩ := Option.map_eq_some_iff.mp hstep
    have hplaced := h.placed none
    simp only [State.inside, State.calls, hin] at hplaced
    refine h.mainMove rfl rfl (fun _ => rfl) (fun _ => Barrier.inv_step (h.barrier hlive) hb)
      (fun j => Barrier.step_others hb (by simp [Barrier.Act.thread])) ?_ rfl h.memory
      (mainOk_congr h.main (.inr rfl) fun _ ht => ht) h.lines h.printMx
    rw [hin]
    exact at_go hplaced hpc hb

theorem Inv.mainReturn {pc' : MainPc} (hpc : s.main = pc) {round : Thread n → Nat}
    (hdone : s.barrier.pc none = .out) (hin : pc.inside = true) (hout : pc'.inside = false)
    (hround : ∀ j, round (some j) = s.round (some j))
    (hcalls : pc'.calls (round none) = pc.calls (s.round none) + 1)
    (hlive : pc.live = true) (hcreated : pc'.created n = pc.created n)
    (hprepared : pc.prepared = true) (hok : MainOk tid time s (round none) pc')
    (hprinted : pc'.printed (round none) = pc.printed (s.round none))
    (hmx : pc'.printMx = pc.printMx) :
    Inv tid time { s with round := round, main := pc' } := by
  subst hpc
  have hplaced := h.placed none
  simp only [State.inside, State.calls, hin] at hplaced
  refine h.mainMove rfl rfl hround (fun _ => h.barrier hlive) (fun _ => ⟨rfl, rfl⟩) ?_ hcreated
    (fun _ => h.memory hprepared) (mainOk_congr hok (.inr rfl) fun _ ht => ht) ?_ ?_
  · have hnext := at_return hplaced hdone
    simpa only [hout, hcalls] using hnext
  · simpa only [hprinted] using h.lines
  · simpa only [hmx] using h.printMx

theorem Inv.print_reads {first : Bool} {text : List Char}
    (hpc : s.main = .print first k text) (j : Fin n) :
    (s.soldiers j).state = cell n (s.round none) j ∧
      ∀ index next, s.soldier j ≠ .store index next := by
  have hlive : s.main.live = true := by rw [hpc]; rfl
  have hout : s.inside none = false := by simp [State.inside, hpc]
  have hok := h.main
  rw [hpc] at hok
  cases first with
  | false => exact (h.reads hlive hout (by simp [hpc]) j).2
  | true =>
    have hle := (h.together (u := some j) hlive hout).1
    have hzero : s.calls none = 0 := by simp [hpc]
    rw [hzero] at hle
    obtain ⟨hstored, hstart⟩ := stored_start (h.placed (some j)) (h.soldier j) hle
    have hmemory := (h.memory (by rw [hpc]; rfl) j).2
    rw [hstored] at hmemory
    refine ⟨by rw [hmemory, hok.2.1 rfl], fun index next heq => ?_⟩
    rcases hstart with hstart | hstart | hstart <;> simp [heq] at hstart

theorem inv_initBarrier (hpc : s.main = .initBarrier) :
    Inv tid time { s with barrier := Barrier.initBarrier (n + 1 : Nat), main := .initState 0 } := by
  have hround : s.round none = 0 := by
    have hok := h.main
    rwa [hpc] at hok
  have hcard : Fintype.card (Thread n) = n + 1 := by simp
  have hbarrier : Barrier.Inv (Barrier.initBarrier (n + 1 : Nat) : Barrier.State (Thread n)) := by
    have hsome : Barrier.Inv (Barrier.initBarrier (Fintype.card (Thread n)) :
        Barrier.State (Thread n)) := Barrier.inv_initBarrier (by rw [hcard]; omega)
    rwa [hcard] at hsome
  have hmx := h.printMx
  have hlines := h.lines
  rw [hpc] at hmx hlines
  refine h.mainMove rfl rfl (fun _ => rfl) (fun _ => hbarrier) (fun j => ?_) (.inl ⟨rfl, rfl⟩)
    (by rw [hpc]; rfl) (by simp [MainPc.prepared]) ⟨hround, Nat.zero_le _, ?_⟩ hlines hmx
  · have hunborn : s.soldier j = .unborn := by
      rw [h.unborn j, hpc]
      exact Nat.zero_le _
    have hplaced := h.placed (some j)
    simp only [State.inside, State.calls, hunborn] at hplaced
    rcases hplaced with ⟨hout, hreturned⟩ | ⟨hin, _⟩
    · exact ⟨hout.symm, hreturned.symm⟩
    · cases hin
  · intro t ht
    cases ht

theorem Inv.fill {pc' : MainPc} (hpc : s.main = pc) {soldier : Soldier}
    (hout : pc.inside = false) (hout' : pc'.inside = false)
    (hcalls : pc'.calls (s.round none) = pc.calls (s.round none)) (hlive : pc.live = true)
    (hcreated : pc'.created n = pc.created n) (hprepared : pc'.prepared = false)
    (hok : MainOk tid time (s.setSoldier k soldier) (s.round none) pc')
    (hprinted : pc'.printed (s.round none) = pc.printed (s.round none))
    (hmx : pc'.printMx = pc.printMx) :
    Inv tid time { s.setSoldier k soldier with main := pc' } := by
  subst hpc
  have hplaced := h.placed none
  simp only [State.inside, State.calls, hout] at hplaced
  refine h.mainMove rfl rfl (fun _ => rfl) (fun _ => h.barrier hlive) (fun _ => ⟨rfl, rfl⟩) ?_
    hcreated (by simp [hprepared]) (mainOk_congr hok (.inr rfl) fun _ ht => ht) ?_ ?_
  · simpa only [State.setSoldier, hout', hcalls] using hplaced
  · simpa only [State.setSoldier, hprinted] using h.lines
  · simpa only [State.setSoldier, hmx] using h.printMx

end

theorem Prepared.setSoldier {m : Nat} {soldier : Soldier} (h : Prepared tid s m) (hk : m ≤ k) :
    Prepared tid (s.setSoldier k soldier) m := by
  intro t ht
  have htk : t.val ≠ k := by omega
  simpa only [State.setSoldier, update_of_ne htk] using h t ht

theorem Prepared.succ {m : Nat} (h : Prepared tid s m) (hm : m < n)
    (hstate : (s.soldiers m).state = Q) (hid : (s.soldiers m).tid = tid ⟨m, hm⟩) :
    Prepared tid s (m + 1) := by
  intro t ht
  by_cases htm : t.val = m
  · subst htm
    exact ⟨hstate, hid⟩
  · exact h t (by omega)

theorem inv_initState (h : Inv tid time s) (hpc : s.main = .initState k)
    (hk : k < n) :
    Inv tid time { s.setSoldier k { s.soldiers k with state := Q } with main := .create k } := by
  have hok := h.main
  rw [hpc] at hok
  obtain ⟨hround, _, hprepared⟩ := hok
  refine h.fill hpc rfl rfl rfl rfl rfl rfl ⟨hround, hk, hprepared.setSoldier le_rfl, ?_⟩ rfl rfl
  simp

theorem inv_storeTid (h : Inv tid time s) {id : Int} (hpc : s.main = .storeTid k id) :
    Inv tid time
      { s.setSoldier k { s.soldiers k with tid := id } with main := .storeIndex k } := by
  have hok := h.main
  rw [hpc] at hok
  obtain ⟨hround, hprepared, hstate, hk, rfl⟩ := hok
  refine h.fill hpc rfl rfl rfl rfl rfl rfl ⟨hround, hk, (hprepared.setSoldier le_rfl).succ hk ?_
    ?_⟩ rfl rfl
  · simpa using hstate
  · simp

theorem inv_storeIndex (h : Inv tid time s) (hpc : s.main = .storeIndex k) :
    Inv tid time
      { s.setSoldier k { s.soldiers k with index := k } with main := .initState (k + 1) } := by
  have hok := h.main
  rw [hpc] at hok
  obtain ⟨hround, hk, hprepared⟩ := hok
  refine h.fill hpc rfl rfl rfl rfl rfl rfl ⟨hround, hk, ?_⟩ rfl rfl
  intro t ht
  by_cases htk : t.val = k
  · subst htk
    simpa using hprepared t ht
  · simpa [htk] using hprepared t ht

theorem inv_create (h : Inv tid time s) (hpc : s.main = .create k) (hk : k < n) :
    Inv tid time
      { s.gotoSoldier ⟨k, hk⟩ .callStart with main := .storeTid k (tid ⟨k, hk⟩) } := by
  have hok := h.main
  rw [hpc] at hok
  obtain ⟨hround, _, hprepared, hstate⟩ := hok
  have hunborn : s.soldier ⟨k, hk⟩ = .unborn := by
    rw [h.unborn, hpc]
    exact le_rfl
  have hmx := h.printMx
  have hlines := h.lines
  rw [hpc] at hmx hlines
  constructor
  · intro _
    exact h.barrier (by rw [hpc]; rfl)
  · intro u
    have hold := h.placed u
    cases u with
    | none =>
      simpa [State.inside, hpc]
        using hold
    | some j =>
      by_cases hj : j = ⟨k, hk⟩
      · subst hj
        simpa [State.inside, hunborn] using hold
      · simpa [State.inside, hj] using hold
  · intro j
    by_cases hj : j = ⟨k, hk⟩
    · subst hj
      simp [MainPc.created]
    · have hjk : j.val ≠ k := fun heq => hj (Fin.ext heq)
      have hold := h.unborn j
      rw [hpc] at hold
      simp only [State.gotoSoldier, update_of_ne hj, hold, MainPc.created]
      omega
  · simp [MainPc.prepared]
  · exact ⟨hround, hprepared, hstate, hk, rfl⟩
  · intro j
    by_cases hj : j = ⟨k, hk⟩
    · subst hj
      have hold := h.soldier ⟨k, hk⟩
      rw [hunborn] at hold
      simpa using hold
    · simpa [hj] using h.soldier j
  · exact hlines
  · exact hmx

theorem inv_general (h : Inv tid time s) (hpc : s.main = .general) :
    Inv tid time
      { s.setSoldier 0 { s.soldiers 0 with state := P } with main := .printLock true } := by
  have hok := h.main
  rw [hpc] at hok
  obtain ⟨hround, hprepared⟩ := hok
  have hlive : s.main.live = true := by rw [hpc]; rfl
  have hout : s.inside none = false := by simp [State.inside, hpc]
  have hplaced := h.placed none
  simp only [State.inside, State.calls, hpc] at hplaced
  have hmx := h.printMx
  have hlines := h.lines
  rw [hpc] at hmx hlines
  refine h.mainMove rfl rfl (fun _ => rfl) (fun _ => h.barrier hlive) (fun _ => ⟨rfl, rfl⟩) hplaced
    (by rw [hpc]; rfl) ?_ ?_ ?_ hmx
  · intro _ t
    have hle := (h.together (u := some t) hlive hout).1
    have hzero : s.calls none = 0 := by simp [hpc]
    rw [hzero] at hle
    rw [(stored_start (h.placed (some t)) (h.soldier t) hle).1, cell_zero t.isLt]
    obtain ⟨hstate, hid⟩ := hprepared t t.isLt
    by_cases ht : t.val = 0
    · simp [ht] at hid ⊢
      exact hid
    · simpa [ht] using ⟨hid, hstate⟩
  · exact ⟨by simp only [State.setSoldier, hround]; exact Nat.zero_le _, fun _ => hround⟩
  · simpa only [State.setSoldier, hround, MainPc.printed] using hlines

theorem Fires.cell_eq_iff (h : Fires n time) {round i : Nat} (hle : round ≤ time) (hi : i < n) :
    cell n round i = F ↔ round = time := by
  constructor
  · intro heq
    by_contra hne
    have hproper := h.proper round (lt_of_le_of_ne hle hne) i hi
    rw [heq] at hproper
    exact absurd hproper.2 (by decide)
  · rintro rfl
    exact h.fire i hi

variable (htid : Function.Injective tid) (hn : 1 ≤ n) (hfires : Fires n time)

include htid hn hfires in
theorem inv_soldierStep (h : Inv tid time s) {pc : SoldierPc} (hpc : s.soldier i = pc)
    (hstep : soldierStep (tid i) s i pc = some s') : Inv tid time s' := by
  have hok := h.soldier i
  rw [hpc] at hok
  have hreads : ∀ j : Fin n, pc.inside = false → pc ≠ .unborn → pc ≠ .exited →
      pc.calls (s.round (some i)) = 2 * s.round (some i) + 1 →
      (s.soldiers j).tid = tid j ∧ (s.soldiers j).state = cell n (s.round (some i)) j := by
    intro j hout hborn hexited hcalls
    have hlive := h.live_of_soldier (hpc ▸ hborn) (hpc ▸ hexited)
    have hread := h.reads (t := some i) hlive (by simpa [State.inside, hpc] using hout)
      (by simpa [hpc] using hcalls) j
    exact ⟨hread.1, hread.2.1⟩
  cases pc with
  | unborn => cases hstep
  | callStart =>
    exact h.soldierCall hpc hstep rfl rfl rfl rfl (by simp) (by simp) (by simp) hok
  | inStart =>
    refine h.soldierInside hpc hstep rfl fun hout => ?_
    have hround : s.round (some i) = 0 := hok
    exact h.soldierReturn hpc hout rfl rfl (fun _ _ => rfl) (by simp [hround]) rfl (by simp)
      ⟨hok, Nat.zero_le _⟩
  | find j =>
    simp only [soldierStep] at hstep
    split at hstep
    · rename_i hj
      cases hstep
      have htids := (hreads ⟨j, hj⟩ rfl (by simp) (by simp) rfl).1
      split
      · rename_i heq
        have hji : (⟨j, hj⟩ : Fin n) = i := htid (htids.symm.trans heq)
        exact h.soldierLocal hpc rfl rfl rfl rfl (by simp) (by simp) (by simp)
          ⟨congrArg Fin.val hji, hok.1 ▸ Nat.zero_le _⟩
      · rename_i hne
        have hji : j ≠ i.val := by
          intro heq
          subst heq
          exact hne htids
        exact h.soldierLocal hpc rfl rfl rfl rfl (by simp) (by simp) (by simp)
          ⟨hok.1, lt_of_le_of_ne hok.2 hji⟩
    · -- the thread finds itself before the end of the array
      rename_i hj
      have hi := i.isLt
      have hle := hok.2
      omega
  | noIndex => exact hok.elim
  | test index =>
    cases hstep
    obtain ⟨rfl, hle⟩ := hok
    have hstate := (hreads i rfl (by simp) (by simp) rfl).2
    simp only [hstate, ne_eq, hfires.cell_eq_iff hle i.isLt]
    split
    · rename_i hne
      have hlt : s.round (some i) < time := lt_of_le_of_ne hle hne
      exact h.soldierLocal hpc rfl rfl rfl rfl (by simp) (by simp) (by simp) ⟨rfl, hlt⟩
    · rename_i hfired
      exact h.soldierLocal hpc rfl rfl rfl rfl (by simp) (by simp) (by simp) (not_not.mp hfired)
  | loadCurr index =>
    cases hstep
    obtain ⟨rfl, hlt⟩ := hok
    have hstate := (hreads i rfl (by simp) (by simp) rfl).2
    exact h.soldierLocal hpc rfl rfl rfl rfl (by simp) (by simp) (by simp) ⟨rfl, hlt, hstate⟩
  | loadLeft index curr =>
    cases hstep
    obtain ⟨rfl, hlt, hcurr⟩ := hok
    have hleft : (if i.val = 0 then X else (s.soldiers (i.val - 1)).state) =
        leftCell n (s.round (some i)) i := by
      unfold leftCell
      split
      · rfl
      · have hi := i.isLt
        exact (hreads ⟨i.val - 1, by omega⟩ rfl (by simp) (by simp) rfl).2
    exact h.soldierLocal hpc rfl rfl rfl rfl (by simp) (by simp) (by simp) ⟨rfl, hlt, hcurr, hleft⟩
  | loadRight index curr left =>
    cases hstep
    obtain ⟨rfl, hlt, hcurr, hleft⟩ := hok
    have hright : (if i.val = n - 1 then X else (s.soldiers (i.val + 1)).state) =
        cell n (s.round (some i)) (i.val + 1) := by
      have hi := i.isLt
      split
      · exact (cell_outside hn _ (by omega)).symm
      · exact (hreads ⟨i.val + 1, by omega⟩ rfl (by simp) (by simp) rfl).2
    exact h.soldierLocal hpc rfl rfl rfl rfl (by simp) (by simp) (by simp)
      ⟨rfl, hlt, hcurr, hleft, hright⟩
  | trans index curr left right =>
    obtain ⟨next, hnext, rfl⟩ := Option.map_eq_some_iff.mp hstep
    obtain ⟨rfl, hlt, rfl, rfl, rfl⟩ := hok
    have hcell : next = cell n (s.round (some i) + 1) i := by
      rw [cell_succ hn _ i.isLt, hnext]
      rfl
    exact h.soldierLocal hpc rfl rfl rfl rfl (by simp) (by simp) (by simp) ⟨rfl, hlt, hcell⟩
  | callCompute index next =>
    exact h.soldierCall hpc hstep rfl rfl rfl rfl (by simp) (by simp) (by simp) hok
  | inCompute index next =>
    refine h.soldierInside hpc hstep rfl fun hout => ?_
    exact h.soldierReturn hpc hout rfl rfl (fun _ _ => rfl) rfl rfl (by simp) hok
  | store index next =>
    cases hstep
    exact inv_store h hpc
  | callUpdate index =>
    exact h.soldierCall hpc hstep rfl rfl rfl rfl (by simp) (by simp) (by simp) hok
  | inUpdate index =>
    refine h.soldierInside hpc hstep rfl fun hout => ?_
    refine h.soldierReturn hpc hout rfl rfl (fun u hu => update_of_ne hu _ _) ?_ ?_ (by simp) ?_
    · rw [update_self]
      rfl
    · rw [update_self]
      rfl
    · rw [update_self]
      exact hok
  | exited => cases hstep

theorem line_take {i : Nat} (hi : i < n) :
    (line n k).take (i + 1) = (line n k).take i ++ [symbol (cell n k i)] := by
  have hlen : i < (line n k).length := by simpa [line] using hi
  rw [List.take_succ_eq_append_getElem hlen]
  simp [line]

include hn hfires in
theorem inv_test (h : Inv tid time s) (hpc : s.main = .test) :
    Inv tid time
      { s with main := if (s.soldiers 0).state ≠ F then .callCompute else .join 0 } := by
  have hok := h.main
  have hlines := h.lines
  have hmx := h.printMx
  rw [hpc] at hok hlines hmx
  have hle : s.round none ≤ time := hok
  have hlive : s.main.live = true := by rw [hpc]; rfl
  have hout : s.inside none = false := by simp [State.inside, hpc]
  have hcalls : s.calls none = 2 * s.round none + 1 := by simp [hpc]
  have hstate : (s.soldiers 0).state = cell n (s.round none) 0 :=
    (h.reads hlive hout hcalls ⟨0, hn⟩).2.1
  simp only [hstate, ne_eq, hfires.cell_eq_iff hle hn]
  split
  · rename_i hne
    have hlt : s.round none < time := lt_of_le_of_ne hle hne
    exact h.mainLocal hpc rfl rfl rfl (fun _ => rfl) rfl (fun _ => rfl) hlt hlines hmx
  · rename_i hfired
    exact h.mainLocal hpc rfl rfl rfl (fun _ => rfl) rfl (fun _ => rfl)
      ⟨not_not.mp hfired, Nat.zero_le _, by simp⟩ hlines hmx

include hn hfires in
theorem inv_mainStep (h : Inv tid time s) (hpc : s.main = pc)
    (hstep : mainStep tid s pc = some s') : Inv tid time s' := by
  have hok := h.main
  have hlines := h.lines
  have hmx := h.printMx
  rw [hpc] at hok hlines hmx
  cases pc with
  | bannerLock =>
    obtain ⟨_, rfl⟩ := taken hstep
    exact h.mainLocal hpc rfl rfl rfl (by simp) rfl (by simp [MainPc.prepared]) hok hlines rfl
  | bannerUnlock =>
    cases hstep
    exact h.mainLocal hpc rfl rfl rfl (by simp) rfl (by simp [MainPc.prepared]) hok hlines rfl
  | initBarrier =>
    cases hstep
    exact inv_initBarrier h hpc
  | initState k =>
    simp only [mainStep] at hstep
    split at hstep
    · rename_i hk
      cases hstep
      exact inv_initState h hpc hk
    · rename_i hk
      cases hstep
      have hkn : k = n := le_antisymm hok.2.1 (by omega)
      subst hkn
      exact h.mainLocal hpc rfl rfl rfl (fun _ => rfl) rfl (by simp [MainPc.prepared])
        ⟨hok.1, hok.2.2⟩ hlines hmx
  | create k =>
    simp only [mainStep, hok.2.1, dif_pos, Option.some.injEq] at hstep
    subst hstep
    exact inv_create h hpc hok.2.1
  | storeTid k id =>
    cases hstep
    exact inv_storeTid h hpc
  | storeIndex k =>
    cases hstep
    exact inv_storeIndex h hpc
  | general =>
    cases hstep
    exact inv_general h hpc
  | printLock first =>
    obtain ⟨_, rfl⟩ := taken hstep
    exact h.mainLocal hpc rfl rfl rfl (fun _ => rfl) rfl (fun _ => rfl)
      ⟨hok.1, hok.2, Nat.zero_le _, List.take_zero.symm⟩ hlines rfl
  | print first k text =>
    obtain ⟨hle, hfirst, hk, htext⟩ := hok
    simp only [mainStep] at hstep
    split at hstep
    · rename_i hlt
      cases hstep
      have hread := (h.print_reads hpc ⟨k, hlt⟩).1
      refine h.mainLocal hpc rfl rfl rfl (fun _ => rfl) rfl (fun _ => rfl) ⟨hle, hfirst, hlt, ?_⟩
        hlines hmx
      rw [line_take hlt, htext, hread]
    · rename_i hge
      cases hstep
      refine h.mainLocal hpc rfl rfl rfl (fun _ => rfl) rfl (fun _ => rfl) ⟨hle, hfirst, ?_⟩ hlines
        hmx
      have hlength : (line n (s.round none)).length ≤ k := by
        simp only [line, List.length_map, List.length_range]
        omega
      rw [htext, List.take_of_length_le hlength]
  | printUnlock first text =>
    cases hstep
    obtain ⟨hle, hfirst, htext⟩ := hok
    have hnext : s.lines ++ [text] = (List.range (s.round none + 1)).map (line n) := by
      rw [List.range_succ, List.map_append, hlines, htext]
      rfl
    cases first with
    | true =>
      exact h.mainLocal hpc rfl rfl rfl (fun _ => rfl) rfl (fun _ => rfl) (hfirst rfl) hnext rfl
    | false =>
      exact h.mainLocal hpc rfl rfl rfl (fun _ => rfl) rfl (fun _ => rfl) hle hnext rfl
  | callStart | callCompute | callUpdate =>
    exact h.mainCall hpc hstep rfl rfl rfl rfl rfl rfl hok rfl rfl
  | inStart =>
    refine h.mainInside hpc hstep rfl rfl fun hout => ?_
    have hround : s.round none = 0 := hok
    refine h.mainReturn hpc hout rfl rfl (fun _ => rfl) ?_ rfl rfl rfl ?_ rfl rfl
    · simp [hround]
    · simp [MainOk, hround]
  | test =>
    cases hstep
    exact inv_test hn hfires h hpc
  | inCompute =>
    refine h.mainInside hpc hstep rfl rfl fun hout => ?_
    exact h.mainReturn hpc hout rfl rfl (fun _ => rfl) rfl rfl rfl rfl hok rfl rfl
  | inUpdate =>
    refine h.mainInside hpc hstep rfl rfl fun hout => ?_
    have hlt : s.round none < time := hok
    have hself : (s.nextRound none).round none = s.round none + 1 := by
      simp [State.nextRound]
    refine h.mainReturn hpc hout rfl rfl (fun j => rfl) ?_ rfl rfl rfl ?_ ?_ rfl
    · rw [hself]
      rfl
    · rw [hself]
      exact ⟨hlt, by simp⟩
    · rw [hself]
      rfl
  | join k =>
    obtain ⟨hround, hk, hexited⟩ := hok
    simp only [mainStep] at hstep
    split at hstep
    · rename_i hlt
      obtain ⟨hjoined, rfl⟩ := taken hstep
      refine h.mainLocal hpc rfl rfl rfl (fun _ => rfl) rfl (fun _ => rfl)
        ⟨hround, hlt, fun t ht => ?_⟩ hlines hmx
      by_cases htk : t.val = k
      · subst htk
        exact hjoined
      · exact hexited t (by omega)
    · rename_i hge
      cases hstep
      exact h.mainLocal hpc rfl rfl rfl (fun _ => rfl) rfl (fun _ => rfl)
        ⟨hround, fun t => hexited t (by have := t.isLt; omega)⟩ hlines hmx
  | killBarrier =>
    cases hstep
    have hplaced := h.placed none
    simp only [State.inside, State.calls, hpc] at hplaced
    exact h.mainMove rfl rfl (fun _ => rfl) (by simp) (fun _ => ⟨rfl, rfl⟩) hplaced
      (by rw [hpc]; rfl) (fun _ => h.memory (by rw [hpc]; rfl)) hok hlines hmx
  | deallocPrint =>
    cases hstep
    exact h.mainLocal hpc rfl rfl rfl (by simp) rfl (fun _ => rfl) hok hlines rfl
  | exited => cases hstep

include htid hn hfires in
theorem inv_step (h : Inv tid time s) (hstep : step tid s t = some s') : Inv tid time s' := by
  cases t with
  | none => exact inv_mainStep hn hfires h rfl hstep
  | some i => exact inv_soldierStep htid hn hfires h rfl hstep

end Xv6.Fssp
