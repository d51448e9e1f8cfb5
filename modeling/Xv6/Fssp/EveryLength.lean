import Xv6.Fssp.Automaton
import Xv6.Lib.Line

/-! The table of `fssp.c` solves the firing squad problem for every length. The
first soldier sends a fast signal `P` through the row and a slow one behind it. The
fast signal comes back from the far end as `Z` and meets the slow one in the middle,
where one new `P` (odd length) or two of them (even length) start the two halves,
each the mirror image of the other. -/
namespace Xv6.Fssp

open Line

def next (curr left right : Int) : Int := (trans curr left right).getD B

theorem syncFrom_eq_scan (left : Int) (row : List Int) : syncFrom left row = scan next left row
    X := by
  induction left, row using syncFrom.induct with
  | case1 left | case2 left curr => rfl
  | case3 left curr right rest ih => rw [syncFrom, ih, scan_cons]; rfl

theorem sync_eq_scan (row : List Int) : sync row = scan next X row X := syncFrom_eq_scan X row

/-! The table is symmetric, and it treats a wall like a mirror. -/

theorem index_outside {α : Type} {array : List α} {i : Int} (hi : ¬(0 ≤ i ∧ i < array.length)) :
    index array i = none := by
  unfold index
  split
  · next hpos => exact List.getElem?_eq_none (by omega)
  · rfl

theorem index_mem {α : Type} {array : List α} {i : Int} {entry : α}
    (h : index array i = some entry) : entry ∈ array := by
  unfold index at h
  split at h
  · exact List.mem_of_getElem? h
  · cases h

theorem transFunc_square : ∀ rows ∈ transFunc, rows.length = 6 ∧ ∀ row ∈ rows, row.length = 6 := by
  decide +kernel

theorem trans_outside {curr left right : Int}
    (h : ¬((0 ≤ curr ∧ curr ≤ M) ∧ (0 ≤ left ∧ left ≤ X) ∧ (0 ≤ right ∧ right ≤ X))) :
    trans curr left right = none := by
  by_contra hsome
  obtain ⟨state, hstate⟩ := Option.ne_none_iff_exists'.mp hsome
  obtain ⟨rows, hrows, hstate⟩ := Option.bind_eq_some_iff.mp hstate
  obtain ⟨row, hrow, hstate⟩ := Option.bind_eq_some_iff.mp hstate
  obtain ⟨hlength, hrowLength⟩ := transFunc_square rows (index_mem hrows)
  have hcurr : 0 ≤ curr ∧ curr < transFunc.length := by
    by_contra hout
    rw [index_outside hout] at hrows
    cases hrows
  have hleft : 0 ≤ left ∧ left < rows.length := by
    by_contra hout
    rw [index_outside hout] at hrow
    cases hrow
  have hright : 0 ≤ right ∧ right < row.length := by
    by_contra hout
    rw [index_outside hout] at hstate
    cases hstate
  have hcount : transFunc.length = 5 := rfl
  have hm : M = 4 := rfl
  have hx : X = 5 := rfl
  rw [hrowLength row (index_mem hrow)] at hright
  exact h ⟨by omega, by omega, by omega⟩

theorem next_inside {curr left right : Int} (h : next curr left right ≠ B) :
    (0 ≤ curr ∧ curr ≤ 4) ∧ (0 ≤ left ∧ left ≤ 5) ∧ (0 ≤ right ∧ right ≤ 5) := by
  by_contra hout
  rw [next, trans_outside hout] at h
  exact h rfl

theorem next_symm_fin : ∀ (curr left : Fin 5) (right : Fin 6), next curr left right ≠ B →
    next curr right left = next curr left right := by
  decide +kernel

theorem next_mirror_fin : ∀ curr right : Fin 5, next curr X right ≠ B →
    next curr curr right = next curr X right ∧ next curr right right = next curr X right := by
  decide +kernel

theorem next_symm {curr left right : Int} (hleft : left ≠ X) (h : next curr left right ≠ B) :
    next curr right left = next curr left right := by
  have hx : X = 5 := rfl
  obtain ⟨⟨hcurr, hcurrMax⟩, ⟨hpos, hmax⟩, hright, hrightMax⟩ := next_inside h
  obtain ⟨c, rfl⟩ := Int.eq_ofNat_of_zero_le hcurr
  obtain ⟨l, rfl⟩ := Int.eq_ofNat_of_zero_le hpos
  obtain ⟨r, rfl⟩ := Int.eq_ofNat_of_zero_le hright
  exact next_symm_fin ⟨c, by omega⟩ ⟨l, by omega⟩ ⟨r, by omega⟩ h

theorem next_mirror {curr right : Int} (hright : right ≠ X) (h : next curr X right ≠ B) :
    next curr curr right = next curr X right ∧ next curr right right = next curr X right := by
  have hx : X = 5 := rfl
  obtain ⟨⟨hcurr, hcurrMax⟩, -, hpos, hmax⟩ := next_inside h
  obtain ⟨c, rfl⟩ := Int.eq_ofNat_of_zero_le hcurr
  obtain ⟨r, rfl⟩ := Int.eq_ofNat_of_zero_le hpos
  exact next_mirror_fin ⟨c, by omega⟩ ⟨r, by omega⟩ h

theorem next_mirrored : Mirrored next X B where
  symm _ _ _ := next_symm
  beside _ _ hright h := (next_mirror hright h).1
  shared _ _ hright h := (next_mirror hright h).2

/-! Rows that fire. -/

def Proper (state : Int) : Prop := 0 ≤ state ∧ state ≤ M

instance (state : Int) : Decidable (Proper state) := inferInstanceAs (Decidable (_ ∧ _))

/-- From this row on all soldiers fire in one step, with proper states before it. -/
def Synchronises (row : List Int) : Prop := ∃ time, firesIn time row = true

variable {row : List Int}

theorem firesIn_zero : firesIn 0 row = true ↔ ∀ state ∈ row, state = F := by
  simp [firesIn]

theorem firesIn_succ {time : Nat} :
    firesIn (time + 1) row = true ↔
      (∀ state ∈ row, Proper state) ∧ firesIn time (sync row) = true := by
  simp [firesIn, Proper]

theorem Synchronises.of_sync (hproper : ∀ state ∈ row, Proper state)
    (h : Synchronises (sync row)) : Synchronises row := by
  obtain ⟨time, htime⟩ := h
  exact ⟨time + 1, firesIn_succ.mpr ⟨hproper, htime⟩⟩

theorem blank_notMem {time : Nat} (h : firesIn time row = true) : B ∉ row := by
  intro hmem
  cases time with
  | zero => exact absurd (firesIn_zero.mp h B hmem) (by decide)
  | succ time => exact absurd ((firesIn_succ.mp h).1 B hmem).1 (by decide)

/-- A row that fires does so beside its mirror image, in the same step. -/
theorem firesIn_mirror {time : Nat} (hlen : 2 ≤ row.length)
    (h : firesIn time row = true) :
    firesIn time (beside row) = true ∧ firesIn time (shared row) = true := by
  induction time generalizing row with
  | zero => simpa only [firesIn_zero, mem_beside, mem_shared, and_self] using firesIn_zero.mp h
  | succ time ih =>
    obtain ⟨hproper, hfires⟩ := firesIn_succ.mp h
    obtain ⟨hbeside, hshared⟩ := ih (by rwa [sync, length_syncFrom]) hfires
    have hwall : ∀ state ∈ row, state ≠ X := by
      intro state hmem hx
      exact absurd (hproper state hmem).2 (by rw [hx]; decide)
    have hblank := blank_notMem hfires
    rw [sync_eq_scan] at hbeside hshared hblank
    simp only [firesIn_succ, mem_beside, mem_shared, sync_eq_scan,
      scan_beside next_mirrored hlen hwall hblank, scan_shared next_mirrored hlen hwall hblank]
    exact ⟨⟨hproper, hbeside⟩, hproper, hshared⟩

/-! The shapes of a row between the start and the middle. -/

def quiet (count : Nat) : List Int := List.replicate count Q

/-- What the slow signal leaves before it: `M R M R …`. -/
def comb : Nat → List Int
  | 0 => []
  | count + 1 => M :: R :: comb count

/-- The same in front of the returning signal: `R M R M …`. -/
def waves : Nat → List Int
  | 0 => []
  | count + 1 => R :: M :: waves count

/-- The fast signal `P` is under way, `rest` soldiers before the far end. -/
def outward (done : Nat) (slow : List Int) (count rest : Nat) : List Int :=
  quiet (done + 1) ++ (slow ++ R :: (comb count ++ P :: quiet rest))

/-- The fast signal comes back as `Z`, with `rest` soldiers behind it. -/
def inward (done : Nat) (slow : List Int) (count rest : Nat) : List Int :=
  quiet (done + 1) ++ (slow ++ (waves count ++ Z :: quiet rest))

theorem quiet_succ (count : Nat) : quiet (count + 1) = Q :: quiet count := rfl

theorem quiet_succ_append (count : Nat) (row : List Int) :
    quiet (count + 1) ++ row = quiet count ++ Q :: row := by
  simp [quiet, List.replicate_succ']

theorem scan_quiet {left : Int} (hleft : left = Q ∨ left = Z) (count : Nat) :
    scan next left (quiet count) X = quiet count := by
  induction count generalizing left with
  | zero => rfl
  | succ count ih =>
    rw [quiet_succ, scan_cons, ih (Or.inl rfl)]
    rcases hleft with rfl | rfl <;> cases count <;> rfl

theorem scan_front (rest : Nat) : scan next P (quiet (rest + 1)) X = P :: quiet rest := by
  rw [quiet_succ, scan_cons, scan_quiet (Or.inl rfl)]
  cases rest <;> rfl

theorem sync_lead {cell : Int} (hcell : cell = Z ∨ cell = R) (done : Nat) (row : List Int) :
    sync (quiet (done + 1) ++ cell :: row) = quiet (done + 1) ++ scan next Q (cell :: row) X := by
  have hlead : ∀ left count, left = X ∨ left = Q →
      scan next left (quiet (count + 1)) cell = quiet (count + 1) := by
    intro left count hleft
    induction count generalizing left with
    | zero => rcases hcell with rfl | rfl <;> rcases hleft with rfl | rfl <;> rfl
    | succ count ih =>
      rw [quiet_succ, scan_cons, ih Q (Or.inr rfl)]
      rcases hleft with rfl | rfl <;> rfl
  have hlast : (quiet (done + 1)).getLastD X = Q := by
    simp [quiet, List.replicate_succ']
  rw [sync_eq_scan, scan_append, hlast, List.headD_cons, hlead X done (Or.inl rfl)]

theorem scan_comb (count rest : Nat) :
    scan next R (comb count ++ P :: quiet (rest + 1)) X =
      R :: (comb count ++ P :: quiet rest) := by
  induction count with
  | zero => rw [comb, List.nil_append, scan_cons, scan_front]; rfl
  | succ count ih =>
    simp only [comb, List.cons_append, scan_cons, ih]
    cases count <;> rfl

theorem scan_comb_end (count : Nat) : scan next R (comb count ++ [P]) X = waves count ++ [Z] := by
  induction count with
  | zero => rfl
  | succ count ih =>
    simp only [comb, List.cons_append, scan_cons, ih]
    cases count <;> rfl

theorem scan_waves (count rest : Nat) :
    scan next R (M :: (waves count ++ Z :: quiet rest)) X =
      waves count ++ Z :: quiet (rest + 1) := by
  induction count with
  | zero =>
    rw [waves, List.nil_append, scan_cons, scan_cons, scan_quiet (Or.inr rfl)]
    cases rest <;> rfl
  | succ count ih =>
    rw [waves, List.cons_append, List.cons_append, scan_cons, scan_cons, ih]
    rfl

/-! One step for each shape. -/

theorem sync_outward_late (done count rest : Nat) :
    sync (outward done [R] count (rest + 1)) = outward done [] (count + 1) rest := by
  rw [outward, List.cons_append, sync_lead (Or.inr rfl), List.nil_append, scan_cons, scan_cons,
    scan_comb]
  cases count <;> rfl

theorem sync_outward_even (done count rest : Nat) :
    sync (outward done [] (count + 1) (rest + 1)) = outward done [Z] (count + 1) rest := by
  rw [outward, List.nil_append, sync_lead (Or.inr rfl), scan_cons, scan_comb]
  rfl

theorem sync_outward_early (done count rest : Nat) :
    sync (outward done [Z] count (rest + 1)) = outward (done + 1) [R] count rest := by
  rw [outward, List.cons_append, sync_lead (Or.inl rfl), List.nil_append, scan_cons, scan_cons,
    scan_comb, outward, quiet_succ_append (done + 1)]
  cases count <;> rfl

theorem sync_turn_late (done count : Nat) :
    sync (outward done [R] count 0) = inward done [] (count + 1) 0 := by
  rw [outward, List.cons_append, sync_lead (Or.inr rfl), List.nil_append, scan_cons, scan_cons,
    show quiet 0 = [] from rfl, scan_comb_end]
  cases count <;> rfl

theorem sync_turn_even (done count : Nat) :
    sync (outward done [] (count + 1) 0) = inward done [Z] (count + 1) 0 := by
  rw [outward, List.nil_append, sync_lead (Or.inr rfl), scan_cons,
    show quiet 0 = [] from rfl, scan_comb_end]
  rfl

theorem sync_turn_early (done count : Nat) :
    sync (outward done [Z] count 0) = inward (done + 1) [R] count 0 := by
  rw [outward, List.cons_append, sync_lead (Or.inl rfl), List.nil_append, scan_cons, scan_cons,
    show quiet 0 = [] from rfl, scan_comb_end, inward, quiet_succ_append (done + 1)]
  cases count <;> rfl

theorem sync_inward_late (done count rest : Nat) :
    sync (inward done [R] (count + 1) rest) = inward done [] (count + 1) (rest + 1) := by
  simp only [inward, waves, List.cons_append, List.nil_append]
  rw [sync_lead (Or.inr rfl), scan_cons, scan_cons, scan_waves]
  rfl

theorem sync_inward_even (done count rest : Nat) :
    sync (inward done [] (count + 1) rest) = inward done [Z] count (rest + 1) := by
  simp only [inward, waves, List.cons_append, List.nil_append]
  rw [sync_lead (Or.inr rfl), scan_cons, scan_waves]
  rfl

theorem sync_inward_early (done count rest : Nat) :
    sync (inward done [Z] (count + 1) rest) = inward (done + 1) [R] count (rest + 1) := by
  simp only [inward, waves, List.cons_append, List.nil_append]
  rw [sync_lead (Or.inl rfl), scan_cons, scan_cons, scan_waves, quiet_succ_append (done + 1)]
  rfl

theorem sync_meet_even (done rest : Nat) :
    sync (inward done [Z] 0 (rest + 1)) = quiet (done + 1) ++ P :: P :: quiet (rest + 1) := by
  simp only [inward, waves, List.cons_append, List.nil_append]
  rw [sync_lead (Or.inl rfl), scan_cons, scan_cons, scan_quiet (Or.inr rfl)]
  rfl

theorem sync_meet_odd (done rest : Nat) :
    sync (inward done [R] 0 rest) = quiet (done + 1) ++ P :: quiet (rest + 1) := by
  simp only [inward, waves, List.cons_append, List.nil_append]
  rw [sync_lead (Or.inr rfl), scan_cons, scan_cons, scan_quiet (Or.inr rfl)]
  cases rest <;> rfl

/-! The states of these rows are proper. -/

variable {count : Nat}

theorem proper_quiet {state : Int} (h : state ∈ quiet count) : Proper state := by
  rw [List.eq_of_mem_replicate h]
  decide

theorem proper_comb {state : Int} (h : state ∈ comb count) : Proper state := by
  induction count with
  | zero => cases h
  | succ count ih =>
    simp only [comb, List.mem_cons] at h
    rcases h with rfl | rfl | h
    · decide
    · decide
    · exact ih h

theorem proper_waves {state : Int} (h : state ∈ waves count) : Proper state := by
  induction count with
  | zero => cases h
  | succ count ih =>
    simp only [waves, List.mem_cons] at h
    rcases h with rfl | rfl | h
    · decide
    · decide
    · exact ih h

theorem proper_outward {done rest : Nat} {slow : List Int}
    (hslow : ∀ state ∈ slow, Proper state) : ∀ state ∈ outward done slow count rest, Proper
      state := by
  intro state h
  simp only [outward, List.mem_append, List.mem_cons] at h
  rcases h with h | h | rfl | h | rfl | h
  · exact proper_quiet h
  · exact hslow state h
  · decide
  · exact proper_comb h
  · decide
  · exact proper_quiet h

theorem proper_inward {done rest : Nat} {slow : List Int}
    (hslow : ∀ state ∈ slow, Proper state) : ∀ state ∈ inward done slow count rest, Proper
      state := by
  intro state h
  simp only [inward, List.mem_append, List.mem_cons] at h
  rcases h with h | h | h | rfl | h
  · exact proper_quiet h
  · exact hslow state h
  · exact proper_waves h
  · decide
  · exact proper_quiet h

/-! From the start to the middle, and from there by the shorter rows. -/

theorem startRow_succ (count : Nat) : startRow (count + 1) = P :: quiet count := rfl

theorem synchronises_halves (h : Synchronises (startRow (count + 2))) :
    Synchronises (quiet (count + 1) ++ P :: P :: quiet (count + 1)) ∧
      Synchronises (quiet (count + 1) ++ P :: quiet (count + 1)) := by
  obtain ⟨time, htime⟩ := h
  obtain ⟨hbeside, hshared⟩ :=
    firesIn_mirror (by simp [startRow_succ, quiet]) htime
  have hreverse : (quiet (count + 1)).reverse = quiet (count + 1) := List.reverse_replicate ..
  rw [startRow_succ, beside, List.reverse_cons, hreverse, List.append_assoc] at hbeside
  rw [startRow_succ, shared, List.tail_cons, hreverse] at hshared
  exact ⟨⟨time, hbeside⟩, time, hshared⟩

variable {length : Nat}

/-- The way back to the middle: as many soldiers are quiet before the slow signal as
there are behind the fast one, counting one for each wave between the signals. -/
theorem synchronises_inward
    (hshorter : ∀ count, count + 2 < length → Synchronises (startRow (count + 2)))
    (count : Nat) : ∀ done rest,
      (done + 1 = rest + count → done + 2 * count + rest + 3 = length →
        Synchronises (inward done [Z] count rest)) ∧
      (done = rest + count → done + 2 * count + rest + 3 = length →
        Synchronises (inward done [R] count rest)) := by
  have hz : ∀ state ∈ [Z], Proper state := by decide
  have hr : ∀ state ∈ [R], Proper state := by decide
  have hnil : ∀ state ∈ ([] : List Int), Proper state := by simp
  induction count with
  | zero =>
    refine fun done rest => ⟨fun hmiddle hlength => ?_, fun hmiddle hlength => ?_⟩
    · refine .of_sync (proper_inward hz) ?_
      obtain rfl : rest = done + 1 := by omega
      rw [sync_meet_even]
      exact (synchronises_halves (hshorter done (by omega))).1
    · refine .of_sync (proper_inward hr) ?_
      obtain rfl : rest = done := by omega
      rw [sync_meet_odd]
      exact (synchronises_halves (hshorter rest (by omega))).2
  | succ count ih =>
    refine fun done rest => ⟨fun hmiddle hlength => ?_, fun hmiddle hlength => ?_⟩
    · refine .of_sync (proper_inward hz) ?_
      rw [sync_inward_early]
      exact (ih (done + 1) (rest + 1)).2 (by omega) (by omega)
    · refine .of_sync (proper_inward hr) ?_
      rw [sync_inward_late]
      refine .of_sync (proper_inward hnil) ?_
      rw [sync_inward_even]
      exact (ih done (rest + 2)).1 (by omega) (by omega)

theorem synchronises_outward
    (hshorter : ∀ count, count + 2 < length → Synchronises (startRow (count + 2)))
    (rest : Nat) : ∀ done,
      (3 * done + rest + 4 = length → Synchronises (outward done [R] done rest)) ∧
      (3 * done + rest + 5 = length → Synchronises (outward done [] (done + 1) rest)) ∧
      (3 * done + rest + 6 = length → Synchronises (outward done [Z] (done + 1) rest)) := by
  have hz : ∀ state ∈ [Z], Proper state := by decide
  have hr : ∀ state ∈ [R], Proper state := by decide
  have hnil : ∀ state ∈ ([] : List Int), Proper state := by simp
  induction rest with
  | zero =>
    refine fun done => ⟨fun hlength => ?_, fun hlength => ?_, fun hlength => ?_⟩
    · refine .of_sync (proper_outward hr) ?_
      rw [sync_turn_late]
      refine .of_sync (proper_inward hnil) ?_
      rw [sync_inward_even]
      exact (synchronises_inward hshorter done done 1).1 (by omega) (by omega)
    · refine .of_sync (proper_outward hnil) ?_
      rw [sync_turn_even]
      exact (synchronises_inward hshorter (done + 1) done 0).1 (by omega) (by omega)
    · refine .of_sync (proper_outward hz) ?_
      rw [sync_turn_early]
      exact (synchronises_inward hshorter (done + 1) (done + 1) 0).2 (by omega) (by omega)
  | succ rest ih =>
    refine fun done => ⟨fun hlength => ?_, fun hlength => ?_, fun hlength => ?_⟩
    · refine .of_sync (proper_outward hr) ?_
      rw [sync_outward_late]
      exact (ih done).2.1 (by omega)
    · refine .of_sync (proper_outward hnil) ?_
      rw [sync_outward_even]
      exact (ih done).2.2 (by omega)
    · refine .of_sync (proper_outward hz) ?_
      rw [sync_outward_early]
      exact (ih (done + 1)).1 (by omega)

theorem proper_startRow (count : Nat) : ∀ state ∈ startRow (count + 1), Proper state := by
  intro state h
  rw [startRow_succ, List.mem_cons] at h
  rcases h with rfl | h
  · decide
  · exact proper_quiet h

theorem synchronises_of_outward {rest : Nat} (h : Synchronises (outward 0 [R] 0 rest)) :
    Synchronises (startRow (rest + 4)) := by
  have hfirst : sync (startRow (rest + 4)) = Z :: P :: quiet (rest + 2) := by
    rw [startRow_succ, sync_eq_scan, scan_cons, scan_front]
    rfl
  have hsecond : sync (Z :: P :: quiet (rest + 2)) = Z :: R :: P :: quiet (rest + 1) := by
    rw [sync_eq_scan, scan_cons, scan_cons, scan_front]
    rfl
  have hthird : sync (Z :: R :: P :: quiet (rest + 1)) = outward 0 [R] 0 rest := by
    rw [sync_eq_scan, scan_cons, scan_cons, scan_cons, scan_front]
    rfl
  refine .of_sync (proper_startRow _) ?_
  rw [hfirst]
  refine .of_sync ?_ ?_
  · simp only [List.mem_cons]
    rintro state (rfl | rfl | hmem)
    · decide
    · decide
    · exact proper_quiet hmem
  rw [hsecond]
  refine .of_sync ?_ (by rwa [hthird])
  simp only [List.mem_cons]
  rintro state (rfl | rfl | rfl | hmem)
  · decide
  · decide
  · decide
  · exact proper_quiet hmem

theorem synchronises_startRow (count : Nat) : Synchronises (startRow (count + 1)) := by
  induction count using Nat.strongRecOn with
  | ind count ih =>
    match count with
    | 0 => exact ⟨1, by decide⟩
    | 1 => exact ⟨3, by decide⟩
    | 2 => exact ⟨7, by decide +kernel⟩
    | rest + 3 =>
      have hshorter : ∀ shorter, shorter + 2 < rest + 4 → Synchronises (startRow (shorter + 2)) :=
        fun shorter hlt => ih (shorter + 1) (by omega)
      exact synchronises_of_outward ((synchronises_outward hshorter rest 0).1 (by omega))

theorem exists_fires {n : Nat} (hn : 1 ≤ n) : ∃ time, Fires n time := by
  obtain ⟨count, rfl⟩ : ∃ count, n = count + 1 := ⟨n - 1, by omega⟩
  obtain ⟨time, htime⟩ := synchronises_startRow count
  exact ⟨time, fires_of_firesIn hn htime⟩

/-- The firing squad for every length: in some step all soldiers turn to `F`, none is
in `F` earlier, and every access to the table before that step is inside the table and
finds an entry that is not blank. -/
theorem firing_squad_every_length {n : Nat} (hn : 1 ≤ n) :
    ∃ time, (∀ i, i < n → cell n time i = F) ∧
      ∀ k, k < time → ∀ i, i < n → cell n k i ≠ F ∧
        ∃ state, trans (cell n k i) (leftCell n k i) (cell n k (i + 1)) = some state ∧
          state ≠ B := by
  obtain ⟨time, hfires⟩ := exists_fires hn
  refine ⟨time, hfires.fire, fun k hk i hi => ⟨hfires.not_fired hk hi, ?_⟩⟩
  have hnext : cell n (k + 1) i ≠ B := by
    rcases Nat.lt_or_ge (k + 1) time with hlt | hge
    · intro hblank
      exact absurd (hfires.proper (k + 1) hlt i hi).1 (by rw [hblank]; decide)
    · rw [show k + 1 = time by omega, hfires.fire i hi]
      decide
  rw [cell_succ hn k hi] at hnext
  cases htrans : trans (cell n k i) (leftCell n k i) (cell n k (i + 1)) with
  | none => exact absurd (by rw [htrans]; rfl) hnext
  | some state => exact ⟨state, rfl, by rwa [htrans] at hnext⟩

theorem firing_squad_twenty_three : 1 ≤ 23 ∧
    ∃ time, (∀ i, i < 23 → cell 23 time i = F) ∧
      ∀ k, k < time → ∀ i, i < 23 → cell 23 k i ≠ F ∧
        ∃ state, trans (cell 23 k i) (leftCell 23 k i) (cell 23 k (i + 1)) = some state ∧
          state ≠ B :=
  ⟨by decide, firing_squad_every_length (by decide)⟩

end Xv6.Fssp
