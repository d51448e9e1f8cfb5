import Mathlib.Algebra.Order.BigOperators.Group.Finset
import Xv6.Fssp.EveryLength
import Xv6.Fssp.Synchrony

/-! Every schedule of `fssp.c` ends: each thread has a bounded number of steps
left, and while somebody has not finished somebody can move. -/
namespace Xv6.Fssp
open Function Transition Mutex

variable {n : Nat} {tid : Fin n → Int} {time : Nat} {s s' : State n} {t u : Thread n}

/-- A bound on the steps of `main` in its round, inside `inc_barrier` from the
rank of its position there. -/
def MainPc.left (n rank : Nat) : MainPc → Nat
  | .exited => 0
  | .deallocPrint => 1
  | .killBarrier => 2
  | .join k => 3 + (n - k)
  | .inUpdate => 1 + rank
  | .callUpdate => 20
  | .inCompute => 21 + rank
  | .callCompute => 40
  | .test => 50 + n
  | .printUnlock first _ => if first then 121 + 2 * n else 51 + n
  | .print first k _ => if first then 122 + 2 * n + (n - k) else 52 + n + (n - k)
  | .printLock first => if first then 123 + 3 * n else 53 + 2 * n
  | .inStart => 100 + 2 * n + rank
  | .callStart => 120 + 2 * n
  | .general => 124 + 3 * n
  | .initState k => 125 + 3 * n + 4 * (n - k)
  | .create k => 124 + 3 * n + 4 * (n - k)
  | .storeTid k _ => 123 + 3 * n + 4 * (n - k)
  | .storeIndex k => 122 + 3 * n + 4 * (n - k)
  | .initBarrier => 126 + 7 * n
  | .bannerUnlock => 127 + 7 * n
  | .bannerLock => 128 + 7 * n

def SoldierPc.left (n rank : Nat) : SoldierPc → Nat
  | .exited => 0
  | .noIndex => 1
  | .inUpdate _ => 1 + rank
  | .callUpdate _ => 20
  | .store _ _ => 21
  | .inCompute _ _ => 22 + rank
  | .callCompute _ _ => 40
  | .trans _ _ _ _ => 41
  | .loadRight _ _ _ => 42
  | .loadLeft _ _ => 43
  | .loadCurr _ => 44
  | .test _ => 45
  | .find k => 46 + (n - k)
  | .inStart => 60 + n + rank
  | .callStart => 80 + n
  | .unborn => 81 + n

/-- A bound on the steps of a thread until its end. -/
def State.left (time : Nat) (s : State n) : Thread n → Nat
  | none => (time - s.round none) * (100 + 2 * n) + s.main.left n (s.barrier.pc none).rank
  | some i =>
    (time - s.round (some i)) * 100 + (s.soldier i).left n (s.barrier.pc (some i)).rank

attribute [local simp] MainPc.inside SoldierPc.inside SoldierPc.left State.gotoSoldier State.calls
  State.left mainStep

def State.total (time : Nat) (s : State n) : Nat := ∑ t, s.left time t

theorem total_lt (hself : s'.left time t < s.left time t)
    (hothers : ∀ u, u ≠ t → s'.left time u ≤ s.left time u) : s'.total time < s.total time := by
  apply Finset.sum_lt_sum
  · intro u _
    by_cases hu : u = t
    · subst hu
      exact hself.le
    · exact hothers u hu
  · exact ⟨t, Finset.mem_univ t, hself⟩

section

variable {i : Fin n}

theorem total_soldier (hmain : s'.main = s.main)
    (hsoldier : ∀ j, j ≠ i → s'.soldier j = s.soldier j)
    (hround : ∀ u, u ≠ some i → s'.round u = s.round u)
    (hbarrier : ∀ u, u ≠ some i → s'.barrier.pc u = s.barrier.pc u)
    (hself : s'.left time (some i) < s.left time (some i)) : s'.total time < s.total time := by
  refine total_lt hself fun u hu => le_of_eq ?_
  cases u with
  | none => simp only [State.left, hmain, hround none hu, hbarrier none hu]
  | some j =>
    have hji : j ≠ i := fun heq => hu (heq ▸ rfl)
    simp only [State.left, hsoldier j hji, hround _ hu, hbarrier _ hu]

theorem total_main (hsoldier : ∀ j, s'.soldier j = s.soldier j)
    (hround : ∀ j, s'.round (some j) = s.round (some j))
    (hbarrier : ∀ j, s'.barrier.pc (some j) = s.barrier.pc (some j))
    (hself : s'.left time none < s.left time none) : s'.total time < s.total time := by
  refine total_lt hself fun u hu => le_of_eq ?_
  cases u with
  | none => exact absurd rfl hu
  | some j => simp only [State.left, hsoldier, hround, hbarrier]

variable {pc : SoldierPc}

theorem total_goto (h : pc.left n (s.barrier.pc (some i)).rank <
      (s.soldier i).left n (s.barrier.pc (some i)).rank) :
    (s.gotoSoldier i pc).total time < s.total time := by
  refine total_soldier (i := i) rfl (fun j hj => update_of_ne hj _ _) (fun _ _ => rfl)
    (fun _ _ => rfl) ?_
  simp only [State.left, State.gotoSoldier, update_self]
  omega

theorem total_soldierCall
    (hstep : ((s.callBarrier (some i)).map fun next => next.gotoSoldier i pc) = some s')
    (h : pc.left n 10 < (s.soldier i).left n 0) : s'.total time < s.total time := by
  simp only [State.callBarrier, Option.map_map, Option.map_eq_some_iff] at hstep
  obtain ⟨b, hb, rfl⟩ := hstep
  obtain ⟨hout, hpc, _⟩ := Barrier.step_enter hb
  refine total_soldier (i := i) rfl (fun j hj => update_of_ne hj _ _) (fun _ _ => rfl)
    (fun u hu => (Barrier.step_others hb hu).1) ?_
  simp only [Function.comp_apply, State.left, State.gotoSoldier, update_self, hpc, hout,
    Barrier.Pc.rank]
  omega

theorem total_inBarrier {after : State n} (hstep : s.inBarrier t after = some s')
    (hafter : s.barrier.pc t = .out → after.total time < s.total time)
    (hinside : ∀ {b : Barrier.State (Thread n)}, (b.pc t).rank < (s.barrier.pc t).rank →
      { s with barrier := b }.left time t < s.left time t) : s'.total time < s.total time := by
  unfold State.inBarrier at hstep
  split at hstep
  · rename_i hout
    cases hstep
    exact hafter hout
  · obtain ⟨b, hb, rfl⟩ := Option.map_eq_some_iff.mp hstep
    refine total_lt (hinside (Barrier.step_go hb).1) fun u hu => le_of_eq ?_
    have hsame := (Barrier.step_others hb hu).1
    cases u <;> simp only [State.left, hsame]

theorem total_soldierStep (h : Inv tid time s) (hpc : s.soldier i = pc)
    (hstep : soldierStep (tid i) s i pc = some s') : s'.total time < s.total time := by
  have hok := h.soldier i
  rw [hpc] at hok
  cases pc with
  | unborn | exited => cases hstep
  | callStart | callCompute | callUpdate =>
    refine total_soldierCall hstep ?_
    rw [hpc]
    simp only [SoldierPc.left]
    omega
  | inStart | inCompute =>
    refine total_inBarrier hstep (fun hout => total_goto ?_) fun hrank => ?_
    · rw [hpc, hout]
      simp only [SoldierPc.left, Barrier.Pc.rank]
      omega
    · simp only [State.left, hpc, SoldierPc.left]
      omega
  | find k =>
    simp only [soldierStep] at hstep
    split at hstep
    · cases hstep
      refine total_goto ?_
      rw [hpc]
      split <;> simp only [SoldierPc.left] <;> omega
    · cases hstep
      refine total_goto ?_
      rw [hpc]
      simp only [SoldierPc.left]
      omega
  | test index =>
    cases hstep
    refine total_goto ?_
    rw [hpc]
    split <;> simp
  | trans index curr left right =>
    obtain ⟨next, _, rfl⟩ := Option.map_eq_some_iff.mp hstep
    refine total_goto ?_
    rw [hpc]
    simp
  | store index next =>
    cases hstep
    refine total_soldier (i := i) rfl (fun j hj => update_of_ne hj _ _) (fun _ _ => rfl)
      (fun _ _ => rfl) ?_
    simp [State.setSoldier, hpc]
  | inUpdate index =>
    refine total_inBarrier hstep (fun hout => ?_) fun hrank => ?_
    · refine total_soldier (i := i) rfl (fun j hj => update_of_ne hj _ _)
        (fun u hu => update_of_ne hu _ _) (fun _ _ => rfl) ?_
      have hlt : s.round (some i) < time := hok.2
      simp only [State.left, State.gotoSoldier, State.nextRound, update_self, hpc, hout,
        SoldierPc.left, Barrier.Pc.rank]
      omega
    · simp only [State.left, hpc, SoldierPc.left]
      omega
  | _ =>
    cases hstep
    refine total_goto ?_
    rw [hpc]
    simp

theorem total_mainLocal {pc : MainPc} {mx : MxState} {lines : List (List Char)}
    {memory : Nat → Soldier}
    (h : pc.left n (s.barrier.pc none).rank < s.main.left n (s.barrier.pc none).rank) :
    { s with soldiers := memory, main := pc, printMx := mx, lines := lines }.total time <
      s.total time := by
  refine total_main (fun _ => rfl) (fun _ => rfl) (fun _ => rfl) ?_
  simp only [State.left]
  omega

theorem total_mainCall {pc : MainPc}
    (hstep : ((s.callBarrier none).map fun next => { next with main := pc }) = some s')
    (h : pc.left n 10 < s.main.left n 0) : s'.total time < s.total time := by
  simp only [State.callBarrier, Option.map_map, Option.map_eq_some_iff] at hstep
  obtain ⟨b, hb, rfl⟩ := hstep
  obtain ⟨hout, hpc, _⟩ := Barrier.step_enter hb
  refine total_main (fun _ => rfl) (fun _ => rfl)
    (fun j => (Barrier.step_others hb (by simp [Barrier.Act.thread])).1) ?_
  simp only [Function.comp_apply, State.left, hpc, hout, Barrier.Pc.rank]
  omega

theorem total_create {k : Nat} (hpc : s.main = .create k) (hk : k < n)
    (hunborn : s.soldier ⟨k, hk⟩ = .unborn) {id : Int} :
    { s.gotoSoldier ⟨k, hk⟩ .callStart with main := .storeTid k id }.total time <
      s.total time := by
  refine total_lt (t := none) ?_ fun u hu => ?_
  · simp [hpc, MainPc.left]
  · cases u with
    | none => exact absurd rfl hu
    | some j =>
      by_cases hj : j = ⟨k, hk⟩
      · subst hj
        simp [hunborn]
      · simp [hj]

theorem total_mainStep (h : Inv tid time s) {pc : MainPc} (hpc : s.main = pc)
    (hstep : mainStep tid s pc = some s') : s'.total time < s.total time := by
  have hok := h.main
  rw [hpc] at hok
  have hlocal : ∀ {next : MainPc} {mx : MxState} {lines : List (List Char)}
      {memory : Nat → Soldier}, (∀ rank, next.left n rank < pc.left n rank) →
      { s with soldiers := memory, main := next, printMx := mx, lines := lines }.total time <
        s.total time := by
    intro next mx lines memory hlt
    exact total_mainLocal (hpc ▸ hlt _)
  cases pc with
  | exited => cases hstep
  | bannerLock | printLock =>
    obtain ⟨_, rfl⟩ := taken hstep
    refine hlocal fun rank => ?_
    simp only [MainPc.left]
    grind
  | initBarrier =>
    cases hstep
    have hborn : ∀ j, s.soldier j = .unborn := fun j => by
      rw [h.unborn j, hpc]
      exact Nat.zero_le _
    have hout : ∀ t, s.barrier.pc t = .out := by
      intro t
      rcases h.placed t with ⟨hout, _⟩ | ⟨hin, _⟩
      · exact hout
      · cases t with
        | none => simp [State.inside, hpc] at hin
        | some j => simp [State.inside, hborn j] at hin
    refine total_main (fun _ => rfl) (fun _ => rfl) (fun j => (hout (some j)).symm) ?_
    simp only [State.left, hpc, MainPc.left]
    omega
  | initState k =>
    simp only [mainStep] at hstep
    split at hstep
    · cases hstep
      refine hlocal fun rank => ?_
      simp only [MainPc.left]
      omega
    · cases hstep
      refine hlocal fun rank => ?_
      simp only [MainPc.left]
      omega
  | create k =>
    simp only [mainStep, hok.2.1, dif_pos, Option.some.injEq] at hstep
    subst hstep
    refine total_create hpc hok.2.1 ?_
    rw [h.unborn, hpc]
    exact le_rfl
  | storeIndex k =>
    have hk : k < n := hok.2.1
    cases hstep
    refine hlocal fun rank => ?_
    simp only [MainPc.left]
    omega
  | print first k text =>
    have hk : k ≤ n := hok.2.2.1
    simp only [mainStep] at hstep
    split at hstep
    · cases hstep
      refine hlocal fun rank => ?_
      cases first <;> simp only [MainPc.left, if_true, if_false, Bool.false_eq_true] <;> omega
    · cases hstep
      refine hlocal fun rank => ?_
      cases first <;> simp only [MainPc.left, if_true, if_false, Bool.false_eq_true] <;> omega
  | printUnlock first text =>
    cases hstep
    refine hlocal fun rank => ?_
    cases first <;> simp [MainPc.left]
  | callStart | callCompute | callUpdate =>
    refine total_mainCall hstep ?_
    rw [hpc]
    simp only [MainPc.left]
    omega
  | inStart | inCompute =>
    refine total_inBarrier hstep (fun hout => hlocal fun rank => ?_) fun hrank => ?_
    · simp only [MainPc.left]
      omega
    · simp only [State.left, hpc, MainPc.left]
      omega
  | inUpdate =>
    refine total_inBarrier hstep (fun hout => ?_) fun hrank => ?_
    · refine total_main (fun _ => rfl) (fun j => rfl) (fun _ => rfl) ?_
      have hround : (s.nextRound none).round none = s.round none + 1 := by simp [State.nextRound]
      have hlt : s.round none < time := hok
      obtain ⟨d, hd⟩ := Nat.exists_eq_add_of_lt hlt
      have hleft : time - s.round none = (time - (s.round none + 1)) + 1 := by omega
      simp only [State.left, hround, hpc, MainPc.left, hleft, Nat.succ_mul, Bool.false_eq_true,
        if_false]
      omega
    · simp only [State.left, hpc, MainPc.left]
      omega
  | test =>
    cases hstep
    refine hlocal fun rank => ?_
    split <;> simp only [MainPc.left] <;> omega
  | join k =>
    simp only [mainStep] at hstep
    split at hstep
    · obtain ⟨_, rfl⟩ := taken hstep
      refine hlocal fun rank => ?_
      simp only [MainPc.left]
      omega
    · cases hstep
      refine hlocal fun rank => ?_
      simp only [MainPc.left]
      omega
  | killBarrier =>
    cases hstep
    refine total_main (fun _ => rfl) (fun _ => rfl) (fun _ => rfl) ?_
    simp [hpc, MainPc.left]
  | _ =>
    cases hstep
    refine hlocal fun rank => ?_
    simp only [MainPc.left, if_true]
    omega

theorem total_step (h : Inv tid time s) (hstep : step tid s t = some s') :
    s'.total time < s.total time := by
  cases t with
  | none => exact total_mainStep h rfl hstep
  | some i => exact total_soldierStep h rfl hstep

end

section Stuck

variable {i : Fin n} (hn : 1 ≤ n) (hfires : Fires n time)

theorem placed_out (h : Inv tid time s) (hout : s.inside t = false) : s.barrier.pc t = .out := by
  rcases h.placed t with ⟨hpc, _⟩ | ⟨hin, _⟩
  · exact hpc
  · simp [hout] at hin

theorem callBarrier_some (h : Inv tid time s) (hout : s.inside t = false) :
    ∃ next, s.callBarrier t = some next := by
  simp [State.callBarrier, Barrier.step, placed_out h hout]

theorem inBarrier_none {after : State n} (hstep : s.inBarrier t after = none) :
    s.barrier.pc t ≠ .out ∧ Barrier.step s.barrier (.go t) = none := by
  unfold State.inBarrier at hstep
  split at hstep
  · cases hstep
  · rename_i hout
    exact ⟨hout, Option.map_eq_none_iff.mp hstep⟩

include hn hfires in
theorem soldier_stuck (h : Inv tid time s) (hstuck : step tid s (some i) = none) :
    s.soldier i = .unborn ∨ s.soldier i = .exited ∨
      s.inside (some i) = true ∧ s.barrier.pc (some i) ≠ .out ∧
        Barrier.step s.barrier (.go (some i)) = none := by
  have hok := h.soldier i
  simp only [step] at hstuck
  cases hpc : s.soldier i with
  | unborn => exact .inl rfl
  | exited => exact .inr (.inl rfl)
  | callStart | callCompute | callUpdate =>
    obtain ⟨next, hnext⟩ := callBarrier_some (t := some i) h
      (by simp [State.inside, hpc])
    simp [hpc, soldierStep, hnext] at hstuck
  | inStart | inCompute | inUpdate =>
    rw [hpc] at hstuck
    exact .inr (.inr ⟨by simp [State.inside, hpc], inBarrier_none hstuck⟩)
  | trans index curr left right =>
    rw [hpc] at hok hstuck
    obtain ⟨rfl, hlt, rfl, rfl, rfl⟩ := hok
    have hx : X = 5 := rfl
    have hm : M = 4 := rfl
    have hproper := hfires.proper _ hlt
    have hleft : 0 ≤ leftCell n (s.round (some i)) i ∧ leftCell n (s.round (some i)) i ≤ X := by
      unfold leftCell
      split
      · exact ⟨by decide, le_rfl⟩
      · have hcell := hproper (i.val - 1) (by have := i.isLt; omega)
        omega
    have hright : 0 ≤ cell n (s.round (some i)) (i + 1) ∧
        cell n (s.round (some i)) (i + 1) ≤ X := by
      by_cases hlast : i.val + 1 < n
      · have hcell := hproper (i.val + 1) hlast
        omega
      · rw [cell_outside hn _ (by omega)]
        exact ⟨by decide, le_rfl⟩
    have hsome := trans_isSome (hproper i i.isLt) hleft hright
    simp [soldierStep, Option.map_eq_none_iff] at hstuck
    simp [hstuck] at hsome
  | find k =>
    rw [hpc] at hstuck
    simp only [soldierStep] at hstuck
    split at hstuck <;> cases hstuck
  | _ => simp [hpc, soldierStep] at hstuck

theorem main_stuck (h : Inv tid time s) (hstuck : step tid s none = none) :
    s.main = .exited ∨ (∃ (k : Nat) (hk : k < n), s.main = .join k ∧ s.soldier ⟨k, hk⟩ ≠ .exited) ∨
      s.inside none = true ∧ s.barrier.pc none ≠ .out ∧
        Barrier.step s.barrier (.go none) = none := by
  have hok := h.main
  have hmx := h.printMx
  simp only [step] at hstuck
  cases hpc : s.main with
  | exited => exact .inl rfl
  | bannerLock | printLock =>
    rw [hpc] at hmx hstuck
    simp [hmx, MainPc.printMx] at hstuck
  | initState k | print first k =>
    rw [hpc] at hstuck
    simp only [mainStep] at hstuck
    split at hstuck <;> cases hstuck
  | create k =>
    rw [hpc] at hok hstuck
    simp [hok.2.1] at hstuck
  | callStart | callCompute | callUpdate =>
    obtain ⟨next, hnext⟩ := callBarrier_some (t := none) h
      (by simp [State.inside, hpc])
    simp [hpc, hnext] at hstuck
  | inStart | inCompute | inUpdate =>
    rw [hpc] at hstuck
    exact .inr (.inr ⟨by simp [State.inside, hpc], inBarrier_none hstuck⟩)
  | join k =>
    rw [hpc] at hstuck
    simp only [mainStep] at hstuck
    split at hstuck
    · rename_i hk
      split at hstuck
      · cases hstuck
      · rename_i hne
        exact .inr (.inl ⟨k, hk, rfl, hne⟩)
    · cases hstuck
  | _ => simp [hpc] at hstuck

theorem calls_inside (h : Inv tid time s) (hin : s.inside t = true) :
    s.calls t ≤ 2 * time := by
  cases t with
  | none =>
    have hok := h.main
    cases hpc : s.main <;> simp_all [State.inside, MainPc.calls, MainOk]
    all_goals omega
  | some i =>
    have hok := h.soldier i
    cases hpc : s.soldier i <;> simp_all [State.inside, SoldierPc.calls, SoldierOk]
    all_goals omega

include hn hfires in
theorem stuck_exited (h : Inv tid time s) (hstuck : ∀ t, step tid s t = none) :
    s.main = .exited ∧ ∀ i, s.soldier i = .exited := by
  rcases main_stuck h (hstuck none) with hexited | hwaits
  · have hok := h.main
    rw [hexited] at hok
    exact ⟨hexited, hok.2⟩
  · -- `main` waits for a soldier or in the barrier: some thread could go on
    exfalso
    have hmain : s.main.live = true ∧ s.main.created n = n := by
      rcases hwaits with ⟨k, hk, hpc, _⟩ | ⟨hin, _⟩
      · rw [hpc]
        exact ⟨rfl, rfl⟩
      · cases hpc : s.main <;> simp_all [State.inside, MainPc.live, MainPc.created]
    have hsoldier : ∀ i, s.soldier i = .exited ∨ s.inside (some i) = true ∧
        s.barrier.pc (some i) ≠ .out ∧ Barrier.step s.barrier (.go (some i)) = none := by
      intro i
      refine (soldier_stuck hn hfires h (hstuck (some i))).resolve_left fun hunborn => ?_
      have hge := (h.unborn i).mp hunborn
      rw [hmain.2] at hge
      exact absurd i.isLt (by omega)
    have hblocked : ∀ t, s.barrier.pc t ≠ .out → Barrier.step s.barrier (.go t) = none := by
      intro t hout
      cases t with
      | none =>
        rcases hwaits with ⟨k, hk, hpc, _⟩ | ⟨_, _, hnone⟩
        · exact absurd (placed_out h (by simp [State.inside, hpc])) hout
        · exact hnone
      | some i =>
        rcases hsoldier i with hexited | ⟨_, _, hnone⟩
        · exact absurd (placed_out h (by simp [State.inside, hexited])) hout
        · exact hnone
    obtain ⟨u, hout, hsame⟩ := (h.barrier hmain.1).stuck hblocked
    -- the thread outside has made all its calls, so nobody can still be inside
    have hlast : s.barrier.returned u = 2 * time + 1 := by
      have hplaced := h.placed u
      cases u with
      | none =>
        rcases hwaits with ⟨k, hk, hpc, _⟩ | ⟨_, hin, _⟩
        · have hround : s.round none = time := by
            have hok := h.main
            rw [hpc] at hok
            exact hok.1
          simpa [At, State.inside, hpc, MainPc.calls, hround, hout]
            using hplaced
        · exact absurd hout hin
      | some i =>
        rcases hsoldier i with hexited | ⟨_, hin, _⟩
        · have hround : s.round (some i) = time := by
            have hok := h.soldier i
            rwa [hexited] at hok
          simpa [At, State.inside, hexited, SoldierPc.calls, hround, hout] using hplaced
        · exact absurd hout hin
    have hnobody : ∀ t, s.inside t = true → s.barrier.pc t ≠ .out → False := by
      intro t hin hpc
      have hcalls := calls_inside h hin
      rcases h.placed t with ⟨hout', _⟩ | ⟨_, _, hreturned⟩
      · exact hpc hout'
      · have hall := hsame t
        omega
    rcases hwaits with ⟨k, hk, _, hne⟩ | ⟨hin, hpc, _⟩
    · rcases hsoldier ⟨k, hk⟩ with hexited | ⟨hin, hpc, _⟩
      · exact hne hexited
      · exact hnobody _ hin hpc
    · exact hnobody none hin hpc

end Stuck

def State.reads (s : State n) : Thread n → Nat → Prop
  | none, i =>
    match s.main with
    | .print _ k _ => k < n ∧ i = k
    | .test => i = 0
    | _ => False
  | some t, i =>
    match s.soldier t with
    | .test index | .loadCurr index => i = index
    | .loadLeft index _ => index ≠ 0 ∧ i = index - 1
    | .loadRight index _ _ => index ≠ n - 1 ∧ i = index + 1
    | _ => False

theorem Inv.no_race (h : Inv tid time s) {i : Fin n} (hreads : s.reads t i) (index : Nat)
    (next : Int) : s.soldier i ≠ .store index next := by
  cases t with
  | none =>
    simp only [State.reads] at hreads
    split at hreads
    · rename_i first k text hpc
      exact (h.print_reads hpc i).2 index next
    · rename_i hpc
      have hcalls : s.calls none = 2 * s.round none + 1 := by
        simp [hpc, MainPc.calls]
      exact (h.reads (by rw [hpc]; rfl) (by simp [State.inside, hpc]) hcalls i).2.2
        index next
    · exact hreads.elim
  | some t =>
    have hclear : (s.soldier t).inside = false → s.soldier t ≠ .unborn → s.soldier t ≠ .exited →
        (s.soldier t).calls (s.round (some t)) = 2 * s.round (some t) + 1 →
        s.soldier i ≠ .store index next := by
      intro hout hborn hexited hcalls
      exact (h.reads (t := some t) (h.live_of_soldier hborn hexited) hout hcalls i).2.2 index next
    simp only [State.reads] at hreads
    split at hreads
    case h_5 => exact hreads.elim
    all_goals
      rename_i hpc
      exact hclear (by rw [hpc]; rfl) (by simp [hpc]) (by simp [hpc]) (by rw [hpc]; rfl)

def MainPc.stopped : MainPc → Prop
  | .join _ | .killBarrier | .deallocPrint | .exited => True
  | _ => False

/-- The program computes the automaton, for every number of soldiers that it
accepts and under every schedule: each line is the next row, reads and writes do
not overlap, all threads leave their loops in the round in which the automaton
fires, and every schedule comes to that end. -/
theorem fssp_computes_automaton {arg : Int} {n : Nat} (harg : numOfSoldiers arg = some n) :
    ∃ time steps, (∀ i, i < n → cell n time i = F) ∧
      (∀ k, k < time → ∀ i, i < n → cell n k i ≠ F) ∧
      ∀ (tid : Fin n → Int) (memory : Nat → Soldier) (labels : List (Thread n)) (final : State n),
        Function.Injective tid → run (step tid) (boot n memory) labels = some final →
        final.lines = (List.range final.lines.length).map (line n) ∧
        (∀ (t : Thread n) (i : Fin n), final.reads t i →
          ∀ index next, final.soldier i ≠ .store index next) ∧
        (final.main.stopped → final.round none = time) ∧
        (∀ i, final.soldier i = .exited → final.round (some i) = time) ∧
        labels.length ≤ steps ∧
        ((∀ t, step tid final t = none) →
          final.main = .exited ∧ ∀ i, final.soldier i = .exited) := by
  have hrange : 1 ≤ n ∧ n ≤ 15 := by
    unfold numOfSoldiers at harg
    split at harg
    · cases harg
    · cases harg
      omega
  obtain ⟨time, hfires⟩ := exists_fires hrange.1
  refine ⟨time, (boot n fun _ => ⟨0, 0, 0⟩).total time, hfires.fire,
    fun k hk i hi => hfires.not_fired hk hi, ?_⟩
  · intro tid memory labels final htid hrun
    have hkeep : ∀ (s : State n) t next, Inv tid time s →
        step tid s t = some next → Inv tid time next ∧
          next.total time < s.total time :=
      fun s t next h hstep => ⟨inv_step htid hrange.1 hfires h hstep, total_step h hstep⟩
    have hboot := inv_boot tid time memory
    have hfinal : Inv tid time final :=
      run_invariant (fun s t next h (_ : True) hstep => (hkeep s t next h hstep).1) hboot
        (meets_of_forall (fun _ _ _ => trivial) _) hrun
    have hmain := hfinal.main
    refine ⟨?_, fun t i => hfinal.no_race, ?_, ?_, ?_, stuck_exited hrange.1 hfires hfinal⟩
    · have hlines := hfinal.lines
      have hlength := congrArg List.length hlines
      simp only [List.length_map, List.length_range] at hlength
      rwa [← hlength] at hlines
    · intro hstopped
      cases hpc : final.main with
      | join k | killBarrier | deallocPrint | exited =>
        rw [hpc] at hmain
        exact hmain.1
      | _ =>
        rw [hpc] at hstopped
        exact hstopped.elim
    · intro i hexited
      have hok := hfinal.soldier i
      rwa [hexited] at hok
    · have hlength := run_length_le hkeep hboot hrun
      have hsame : (boot n memory).total time =
          (boot n fun _ => ⟨0, 0, 0⟩).total time := rfl
      rw [← hsame]
      exact (Nat.le_add_right _ _).trans hlength

/-- Two soldiers: in each turn `main` and they go on until they have to wait. -/
def twoSoldiers (first second : Fin 2) : List (Thread 2) :=
  [(24, 6, 20), (8, 18, 5), (12, 8, 13), (5, 17, 12), (18, 5, 13), (7, 13, 5), (18, 12, 17),
    (5, 13, 8), (12, 5, 12), (12, 7, 0), (5, 0, 0)].flatMap fun turn =>
      List.replicate turn.1 none ++ List.replicate turn.2.1 (some first) ++
        List.replicate turn.2.2 (some second)

theorem fssp_computes_automaton_two_soldiers :
    numOfSoldiers 2 = some 2 ∧ ∃ time, cell 2 time 0 = F ∧
      ∃ final, run (step fun i : Fin 2 => i.val + 7) (boot 2 fun _ => ⟨9, 9, 9⟩)
          (twoSoldiers ⟨0, Nat.zero_lt_two⟩ ⟨1, Nat.one_lt_two⟩) = some final ∧
        final.lines = [['P', 'Q'], ['Z', 'P'], ['Z', 'Z'], ['F', 'F']] ∧
        final.round none = time := by
  obtain ⟨time, steps, hfire, _, hall⟩ :=
    fssp_computes_automaton (show numOfSoldiers 2 = some 2 by decide)
  obtain ⟨final, hrun, hmain, hlines⟩ : ∃ final, run (step fun i : Fin 2 => i.val + 7)
      (boot 2 fun _ => ⟨9, 9, 9⟩) (twoSoldiers ⟨0, Nat.zero_lt_two⟩ ⟨1, Nat.one_lt_two⟩) =
        some final ∧
      final.main = .exited ∧ final.lines = [['P', 'Q'], ['Z', 'P'], ['Z', 'Z'], ['F', 'F']] := by
    decide +kernel
  have htid : Injective fun i : Fin 2 => (i.val : Int) + 7 := by
    intro i j hij
    have hval : (i.val : Int) + 7 = j.val + 7 := hij
    exact Fin.ext (by omega)
  have hfinal := hall _ _ _ final htid hrun
  refine ⟨by decide, time, hfire 0 Nat.zero_lt_two, final, hrun, hlines, hfinal.2.2.1 ?_⟩
  rw [hmain]
  trivial

end Xv6.Fssp
