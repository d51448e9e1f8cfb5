import Xv6.Vm.Growproc

/-! `sbrk` by several threads of a process. `growproc` takes no lock: another
thread can run between its read of `proc->sz`, the turns of `allocuvm` and the
store to `proc->sz`. -/
namespace Xv6.Sbrk
open Function Transition Vm

inductive Pc where
  | user
  /-- In `sys_sbrk(n)`, with `addr` read from `proc->sz`. -/
  | called (addr : Nat) (n : Int)
  /-- In `allocuvm`, before page `v`. -/
  | allocuvm (addr : Nat) (n : Int) (oldsz newsz v : Nat)
  /-- In the `deallocuvm` of an `allocuvm` without memory. -/
  | undo (oldsz newsz v : Nat)
  | store (addr : Nat) (n : Int) (sz : Nat)
deriving DecidableEq

/-- `results` are the addresses that calls have returned, with their `n`, the
latest first. -/
structure State (T : Type) where
  space : Space
  pc : T → Pc
  results : List (Nat × Int)

inductive Act (T : Type) where
  | call (t : T) (n : Int)
  | grow (t : T)
  | page (t : T) (free : FreeLists)
  | unmap (t : T)
  | setSz (t : T)

variable {T : Type} [DecidableEq T]

def State.goto (s : State T) (t : T) (pc : Pc) : State T :=
  { s with pc := update s.pc t pc }

def State.map (s : State T) (d : PageDir) (m : Mem) (t : T) (pc : Pc) : State T :=
  { s with space := ⟨s.space.sz, d, m⟩ }.goto t pc

/-- One page of `deallocuvm`: the page to look at next. -/
def unmapTurn (v : Nat) (d : PageDir) (m : Mem) : Option (Nat × PageDir × Mem) :=
  match d.lookup v with
  | none => some (v + nptentries, d, m)
  | some pte =>
    if pte.p then
      if pte.ppn = 0 then none
      else (kfree m pte.ppn).map fun m => (v + 1, d.setPte v Pte.zero, m)
    else some (v + 1, d, m)

def step (s : State T) : Act T → Option (State T)
  | .call t n =>
    match s.pc t with
    | .user => if 0 < n ∧ n < 0x80000000 then some (s.goto t (.called s.space.sz n)) else none
    | _ => none
  | .grow t =>
    match s.pc t with
    | .called addr n =>
      let newsz := grownSize s.space.sz n
      if kernbase ≤ newsz then some (s.goto t .user)
      else if newsz < s.space.sz then some (s.goto t (.store addr n s.space.sz))
      else some (s.goto t (.allocuvm addr n s.space.sz newsz (pages s.space.sz)))
    | _ => none
  | .page t free =>
    match s.pc t with
    | .allocuvm addr n oldsz newsz v =>
      if v < pages newsz then
        match allocTurn free v s.space.pgdir s.space.mem with
        | none => none
        | some (false, d, m) => some (s.map d m t (.undo oldsz newsz (pages oldsz)))
        | some (true, d, m) => some (s.map d m t (.allocuvm addr n oldsz newsz (v + 1)))
      else some (s.goto t (.store addr n newsz))
    | _ => none
  | .unmap t =>
    match s.pc t with
    | .undo oldsz newsz v =>
      if v < pages newsz then
        (unmapTurn v s.space.pgdir s.space.mem).map fun next =>
          s.map next.2.1 next.2.2 t (.undo oldsz newsz next.1)
      else some (s.goto t .user)
    | _ => none
  | .setSz t =>
    match s.pc t with
    | .store addr n sz =>
      some ({ s with
        space := { s.space with sz := sz }
        results := (addr, n) :: s.results }.goto t .user)
    | _ => none

section

variable {s s' final : State T} {t : T} {addr oldsz newsz : Nat} {n : Int} {free : Nat → FreeLists}
  {d : PageDir} {m : Mem}

def Leads (s final : State T) : Prop := ∃ labels, run step s labels = some final

theorem Leads.cons {a : Act T} (hrest : Leads s' final) (h : step s a = some s') :
    Leads s final := by
  obtain ⟨labels, hrun⟩ := hrest
  exact ⟨a :: labels, run_cons_eq_some.mpr ⟨s', h, hrun⟩⟩

theorem goto_map (pc pc' : Pc) : (s.goto t pc).map d m t pc' = s.map d m t pc' := by
  simp only [State.map, State.goto, update_idem]

theorem map_map {d' : PageDir} {m' : Mem} (pc pc' : Pc) :
    (s.map d' m' t pc).map d m t pc' = s.map d m t pc' := by
  simp only [State.map, State.goto, update_idem]

/-- The turns of `allocuvm`, when no other thread runs between them. -/
theorem leads_allocTurns {k v : Nat} {ok : Bool} (hk : v + k = pages newsz)
    (hpc : s.pc t = .allocuvm addr n oldsz newsz v)
    (h : allocTurns free k v s.space.pgdir s.space.mem = some (ok, d, m))
    (hrest : Leads (s.map d m t (if ok then .allocuvm addr n oldsz newsz (pages newsz)
      else .undo oldsz newsz (pages oldsz))) final) : Leads s final := by
  induction k generalizing v s with
  | zero =>
    cases h
    have hsame : s.map s.space.pgdir s.space.mem t (.allocuvm addr n oldsz newsz (pages newsz)) =
        s := by
      rw [← hk, Nat.add_zero, ← hpc]
      simp only [State.map, State.goto, update_eq_self]
    simpa only [if_true, hsame] using hrest
  | succ k ih =>
    have hv : v < pages newsz := by omega
    simp only [allocTurns] at h
    split at h
    · cases h
    · rename_i d1 m1 hturn
      cases h
      refine hrest.cons (a := .page t (free v)) ?_
      simp [step, hpc, hv, hturn]
    · rename_i d1 m1 hturn
      have hstep : step s (.page t (free v)) =
          some (s.map d1 m1 t (.allocuvm addr n oldsz newsz (v + 1))) := by
        simp [step, hpc, hv, hturn]
      refine Leads.cons (ih (v := v + 1) (by omega) (update_self ..) h ?_) hstep
      rwa [map_map]

theorem unmapLoop_turn {fuel v last : Nat} (hv : v < last) :
    unmapLoop kfree (fuel + 1) v last d m =
      (unmapTurn v d m).bind fun next => unmapLoop kfree fuel next.1 last next.2.1 next.2.2 := by
  rw [unmapLoop, if_neg (Nat.not_le.mpr hv), unmapTurn]
  cases d.lookup v with
  | none => rfl
  | some pte =>
    dsimp only
    split
    · split
      · rfl
      · cases kfree m pte.ppn with
        | none | some m1 => rfl
    · rfl

theorem lt_of_unmapTurn {v next : Nat} {d' : PageDir} {m' : Mem}
    (h : unmapTurn v d m = some (next, d', m')) : v < next := by
  unfold unmapTurn at h
  split at h
  · cases h
    exact Nat.lt_add_of_pos_right (by decide)
  · split at h
    · split at h
      · cases h
      · obtain ⟨_, _, hresult⟩ := Option.map_eq_some_iff.mp h
        cases hresult
        exact Nat.lt_succ_self v
    · cases h
      exact Nat.lt_succ_self v

theorem leads_unmapLoop {fuel v : Nat} (hfuel : pages newsz - v ≤ fuel)
    (hpc : s.pc t = .undo oldsz newsz v)
    (h : unmapLoop kfree fuel v (pages newsz) s.space.pgdir s.space.mem = some (d, m))
    (hrest : Leads (s.map d m t .user) final) : Leads s final := by
  induction fuel generalizing v s with
  | zero =>
    cases h
    refine hrest.cons (a := .unmap t) ?_
    simp [step, hpc, show ¬ v < pages newsz by omega]
    rfl
  | succ fuel ih =>
    by_cases hv : v < pages newsz
    · rw [unmapLoop_turn hv] at h
      obtain ⟨⟨next, d1, m1⟩, hturn, hlater⟩ := Option.bind_eq_some_iff.mp h
      have hnext := lt_of_unmapTurn hturn
      have hstep : step s (.unmap t) = some (s.map d1 m1 t (.undo oldsz newsz next)) := by
        simp [step, hpc, hv, hturn]
      refine Leads.cons (ih (by omega) (update_self ..) hlater ?_) hstep
      rwa [map_map]
    · rw [unmapLoop, if_pos (Nat.not_lt.mp hv)] at h
      cases h
      refine hrest.cons (a := .unmap t) ?_
      simp [step, hpc, hv]
      rfl

/-- `allocuvm`, from the call of `growproc` to the store of the size. -/
theorem leads_allocuvm {sz : Nat} (hn : 0 < n) (hint : n < 0x80000000)
    (h : s.space.allocuvm free (grownSize s.space.sz n) = some (sz, d, m))
    (hrest : Leads (s.map d m t (if sz = 0 then .user else .store s.space.sz n sz)) final) :
    Leads (s.goto t (.called s.space.sz n)) final := by
  unfold Space.allocuvm at h
  split at h
  · rename_i hbig
    cases h
    refine hrest.cons (a := .grow t) ?_
    simp [step, State.map, State.goto, hbig]
  · rename_i hlow
    split at h
    · rename_i hlt
      cases h
      refine hrest.cons (a := .grow t) ?_
      rw [if_neg (by omega)]
      simp [step, State.map, State.goto, hlow, hlt]
    · rename_i hle
      have hgrows : s.space.sz < grownSize s.space.sz n := by
        simp only [grownSize, wordSize] at hle ⊢
        omega
      have hmono := pages_mono hgrows.le
      have hstep : step (s.goto t (.called s.space.sz n)) (.grow t) = some (s.goto t
          (.allocuvm s.space.sz n s.space.sz (grownSize s.space.sz n) (pages s.space.sz))) := by
        simp [step, State.goto, hlow, hle]
      refine Leads.cons ?_ hstep
      split at h
      · cases h
      · rename_i d1 m1 hturns
        cases h
        rw [if_neg (by omega)] at hrest
        refine leads_allocTurns (by omega) (update_self ..) hturns
          (hrest.cons (a := .page t (free 0)) ?_)
        simp [step, State.map, State.goto]
      · rename_i d1 m1 hturns
        split at h
        · cases h
        · rename_i sz' d2 m2 hdealloc
          cases h
          rw [deallocuvm, unmapRange, if_neg (Nat.not_le.mpr hgrows)] at hdealloc
          obtain ⟨⟨d3, m3⟩, hloop, hresult⟩ := Option.map_eq_some_iff.mp hdealloc
          cases hresult
          refine leads_allocTurns (by omega) (update_self ..) hturns
            (leads_unmapLoop le_rfl (update_self ..) hloop ?_)
          rwa [map_map, goto_map]

/-- A call that nobody disturbs is the `growproc` of the address space. -/
theorem growproc_undisturbed {space : Space} {ok : Bool} (hpc : s.pc t = .user) (hn : 0 < n)
    (hint : n < 0x80000000) (h : s.space.growproc free n = some (space, ok)) :
    Leads s { s with
      space := space
      results := if ok then (s.space.sz, n) :: s.results else s.results } := by
  refine Leads.cons (a := .call t n) ?_ (by simp [step, hpc, hn, hint]; rfl)
  simp only [Space.growproc, if_pos hn] at h
  split at h
  · cases h
  · rename_i sz d m halloc
    refine leads_allocuvm hn hint halloc ?_
    split at h
    · cases h
      rw [if_pos (by assumption)]
      refine ⟨[], ?_⟩
      simp [State.map, State.goto, ← hpc]
    · cases h
      rw [if_neg (by assumption)]
      refine Leads.cons (a := .setSz t) ⟨[], rfl⟩ ?_
      simp [step, State.map, State.goto, ← hpc]

end

/-- The next turn of the thread's `allocuvm` is the panic "remap". -/
def Remaps (s : State T) (t : T) (free : FreeLists) : Prop :=
  ∃ addr n oldsz newsz v, s.pc t = .allocuvm addr n oldsz newsz v ∧ v < pages newsz ∧
    allocTurn free v s.space.pgdir s.space.mem = none

/-- A call begins when no other one is in progress, and `mappages` gets its page
tables. -/
def OneByOne (s : State T) : Act T → Prop
  | .call _ _ => ∀ u, s.pc u = .user
  | .page _ free => free.table ≠ []
  | _ => True

instance [Fintype T] (s : State T) (a : Act T) : Decidable (OneByOne s a) :=
  match a with
  | .call _ _ => inferInstanceAs (Decidable (∀ u, s.pc u = .user))
  | .page _ free => inferInstanceAs (Decidable (free.table ≠ []))
  | .grow _ | .unmap _ | .setSz _ => inferInstanceAs (Decidable True)

/-- No call is in progress and the address space is whole. -/
structure Start (s : State T) : Prop where
  size : s.space.sz ≤ kernbase
  dense : s.space.pgdir.Dense (pages s.space.sz)
  user : ∀ t, s.pc t = .user
  results : s.results = []

/-- The address is in the range that a call has returned. -/
def Covers (result : Nat × Int) (x : Nat) : Prop :=
  result.1 ≤ x ∧ (x : Int) < result.1 + result.2

def Knows (space : Space) : Pc → Prop
  | .user => space.pgdir.Dense (pages space.sz)
  | .called addr n => addr = space.sz ∧ 0 < n ∧ n < 0x80000000 ∧ space.pgdir.Dense (pages space.sz)
  | .allocuvm addr n oldsz newsz v =>
    addr = space.sz ∧ oldsz = space.sz ∧ 0 < n ∧ (newsz : Int) = space.sz + n ∧ newsz ≤ kernbase ∧
      pages space.sz ≤ v ∧ v ≤ pages newsz ∧ space.pgdir.Dense v
  | .undo oldsz newsz v =>
    oldsz = space.sz ∧ pages space.sz ≤ v ∧ ∃ last, last ≤ pages newsz ∧
      ∀ u, (space.pgdir.present u).isSome = true ↔ u < pages space.sz ∨ (v ≤ u ∧ u < last)
  | .store addr n sz =>
    addr = space.sz ∧ 0 < n ∧ (sz : Int) = space.sz + n ∧ sz ≤ kernbase ∧
      space.pgdir.Dense (pages sz)

/-- One call at a time. The results lie one above the other and add up. -/
structure Inv (start : Nat) (s : State T) : Prop where
  size : s.space.sz ≤ kernbase
  alone : ∀ t, s.pc t ≠ .user → (∀ u, u ≠ t → s.pc u = .user) ∧ Knows s.space (s.pc t)
  idle : (∀ t, s.pc t = .user) → Knows s.space .user
  below : ∀ result ∈ s.results, (result.1 : Int) + result.2 ≤ s.space.sz
  order : s.results.Pairwise fun later earlier => (earlier.1 : Int) + earlier.2 ≤ later.1
  total : (s.space.sz : Int) = start + (s.results.map Prod.snd).sum

section

variable {start : Nat} {s s' : State T} {t : T} {pc : Pc} {d : PageDir} {m : Mem}

omit [DecidableEq T] in
theorem Start.inv (h : Start s) : Inv s.space.sz s where
  size := h.size
  alone := fun t ht => absurd (h.user t) ht
  idle := fun _ => h.dense
  below := by simp [h.results]
  order := by simp [h.results]
  total := by simp [h.results]

theorem Inv.map (h : Inv start s) (hothers : ∀ u, u ≠ t → s.pc u = .user)
    (hknows : Knows ⟨s.space.sz, d, m⟩ pc) : Inv start (s.map d m t pc) where
  size := h.size
  alone := by
    intro u hu
    by_cases hut : u = t
    · subst hut
      refine ⟨fun w hw => ?_, ?_⟩
      · exact (update_of_ne hw _ _).trans (hothers w hw)
      · have hself : (s.map d m u pc).pc u = pc := update_self ..
        rw [hself]
        exact hknows
    · exact absurd ((update_of_ne hut _ _).trans (hothers u hut)) hu
  idle := by
    intro hall
    have hself : (s.map d m t pc).pc t = pc := update_self ..
    rw [hall t] at hself
    subst hself
    exact hknows
  below := h.below
  order := h.order
  total := h.total

theorem Inv.goto (h : Inv start s) (hothers : ∀ u, u ≠ t → s.pc u = .user)
    (hknows : Knows s.space pc) : Inv start (s.goto t pc) :=
  h.map (d := s.space.pgdir) (m := s.space.mem) hothers hknows

variable {free : FreeLists}

theorem dense_allocTurn {d' : PageDir} {m' : Mem} {v : Nat} (hd : d.Dense v)
    (htable : free.table ≠ []) (h : allocTurn free v d m = some (true, d', m')) :
    d'.Dense (v + 1) := by
  rcases allocTurn_cases h with ⟨hfalse, _⟩ | ⟨q, _, _, _, ⟨_, _, _, hinstall⟩ | ⟨_, _, hnil⟩⟩
  · cases hfalse
  · intro u
    by_cases huv : u = v
    · rw [huv, hinstall.entry]
      simp
    · rw [hinstall.others u huv, hd u]
      omega
  · exact absurd hnil htable

theorem unmapTurn_knows {lo last v next : Nat} {d' : PageDir} {m' : Mem}
    (hd : ∀ u, (d.present u).isSome = true ↔ u < lo ∨ (v ≤ u ∧ u < last)) (hlo : lo ≤ v)
    (h : unmapTurn v d m = some (next, d', m')) :
    v < next ∧ ∀ u, (d'.present u).isSome = true ↔ u < lo ∨ (next ≤ u ∧ u < last) := by
  refine ⟨lt_of_unmapTurn h, ?_⟩
  have hpast : d.present v = none → last ≤ v := by
    intro hnone
    have hnot := mt (hd v).mpr
    rw [hnone] at hnot
    have := hnot (by simp)
    omega
  unfold unmapTurn at h
  split at h
  · rename_i hlookup
    cases h
    have hlast := hpast (present_of_lookup_none hlookup)
    intro u
    rw [hd u]
    omega
  · rename_i pte hlookup
    split at h
    · rename_i hp
      split at h
      · cases h
      · obtain ⟨m1, _, hresult⟩ := Option.map_eq_some_iff.mp h
        cases hresult
        intro u
        by_cases huv : u = v
        · rw [huv, present_setPte_zero]
          simp only [Option.isSome_none, Bool.false_eq_true, false_iff]
          omega
        · rw [present_setPte_of_ne huv, hd u]
          omega
    · rename_i hp
      cases h
      have hlast := hpast (present_of_not_p hlookup (by simpa using hp))
      intro u
      rw [hd u]
      omega

theorem inv_call {n : Int} (h : Inv start s) (hguard : ∀ u, s.pc u = .user)
    (hstep : step s (.call t n) = some s') : Inv start s' := by
  simp only [step, hguard t] at hstep
  obtain ⟨hn, rfl⟩ := taken hstep
  exact h.goto (fun u _ => hguard u) ⟨rfl, hn.1, hn.2, h.idle hguard⟩

theorem inv_grow (h : Inv start s) (hstep : step s (.grow t) = some s') : Inv start s' := by
  simp only [step] at hstep
  split at hstep
  · rename_i addr n hpc
    obtain ⟨hothers, hknows⟩ := h.alone t (by simp [hpc])
    rw [hpc] at hknows
    obtain ⟨rfl, hpos, hint, hdense⟩ := hknows
    have hsize := h.size
    simp only [kernbase] at hsize
    have hgrown : (grownSize s.space.sz n : Int) = s.space.sz + n := by
      simp only [grownSize, wordSize]
      omega
    split at hstep
    · cases hstep
      exact h.goto hothers hdense
    · rename_i hlow
      rw [if_neg (by omega)] at hstep
      cases hstep
      exact h.goto hothers ⟨rfl, rfl, hpos, hgrown, by omega, le_rfl, pages_mono (by omega), hdense⟩
  · cases hstep

theorem inv_page (h : Inv start s) (htable : free.table ≠ [])
    (hstep : step s (.page t free) = some s') : Inv start s' := by
  simp only [step] at hstep
  split at hstep
  · rename_i addr n oldsz newsz v hpc
    obtain ⟨hothers, hknows⟩ := h.alone t (by simp [hpc])
    rw [hpc] at hknows
    obtain ⟨rfl, rfl, hpos, hnewsz, hbound, hlo, hhi, hdense⟩ := hknows
    split at hstep
    · rename_i hv
      split at hstep
      · cases hstep
      · rename_i d m hturn
        cases hstep
        rcases allocTurn_cases hturn with ⟨_, rfl, _⟩ | ⟨_, _, htrue, _⟩
        · refine h.map hothers ⟨rfl, le_rfl, v, by omega, fun u => ?_⟩
          rw [hdense u]
          show u < v ↔ u < pages s.space.sz ∨ (pages s.space.sz ≤ u ∧ u < v)
          omega
        · cases htrue
      · rename_i d m hturn
        cases hstep
        exact h.map hothers ⟨rfl, rfl, hpos, hnewsz, hbound, Nat.le_succ_of_le hlo, hv,
          dense_allocTurn hdense htable hturn⟩
    · cases hstep
      have hlast : v = pages newsz := by omega
      rw [hlast] at hdense
      exact h.goto hothers ⟨rfl, hpos, hnewsz, hbound, hdense⟩
  · cases hstep

theorem inv_unmap (h : Inv start s) (hstep : step s (.unmap t) = some s') : Inv start s' := by
  simp only [step] at hstep
  split at hstep
  · rename_i oldsz newsz v hpc
    obtain ⟨hothers, hknows⟩ := h.alone t (by simp [hpc])
    rw [hpc] at hknows
    obtain ⟨rfl, hlo, last, hlast, hpresent⟩ := hknows
    split at hstep
    · obtain ⟨⟨next, d, m⟩, hturn, hresult⟩ := Option.map_eq_some_iff.mp hstep
      cases hresult
      obtain ⟨hnext, hpresent'⟩ := unmapTurn_knows hpresent hlo hturn
      exact h.map hothers ⟨rfl, Nat.le_trans hlo (Nat.le_of_lt hnext), last, hlast, hpresent'⟩
    · cases hstep
      refine h.goto hothers fun u => ?_
      rw [hpresent u]
      omega
  · cases hstep

theorem inv_setSz (h : Inv start s) (hstep : step s (.setSz t) = some s') : Inv start s' := by
  simp only [step] at hstep
  split at hstep
  · rename_i addr n sz hpc
    cases hstep
    obtain ⟨hothers, hknows⟩ := h.alone t (by simp [hpc])
    rw [hpc] at hknows
    obtain ⟨rfl, hpos, hsz, hbound, hdense⟩ := hknows
    refine ⟨hbound, fun u hu => ?_, fun _ => hdense, fun result hresult => ?_, ?_, ?_⟩
    · by_cases hut : u = t
      · subst hut
        exact absurd (update_self ..) hu
      · exact absurd ((update_of_ne hut _ _).trans (hothers u hut)) hu
    · rcases List.mem_cons.mp hresult with rfl | hold
      · exact hsz.ge
      · have hbelow := h.below result hold
        show (result.1 : Int) + result.2 ≤ sz
        omega
    · exact List.pairwise_cons.mpr ⟨h.below, h.order⟩
    · have htotal := h.total
      show (sz : Int) = start + (((s.space.sz, n) :: s.results).map Prod.snd).sum
      rw [List.map_cons, List.sum_cons]
      omega
  · cases hstep

theorem inv_step {a : Act T} (h : Inv start s) (hguard : OneByOne s a)
    (hstep : step s a = some s') : Inv start s' := by
  cases a with
  | call t n => exact inv_call h hguard hstep
  | grow t => exact inv_grow h hstep
  | page t free => exact inv_page h hguard hstep
  | unmap t => exact inv_unmap h hstep
  | setSz t => exact inv_setSz h hstep

omit [DecidableEq T] in
theorem Inv.not_remaps (h : Inv start s) : ¬ Remaps s t free := by
  rintro ⟨addr, n, oldsz, newsz, v, hpc, _, hpanic⟩
  obtain ⟨_, hknows⟩ := h.alone t (by simp [hpc])
  rw [hpc] at hknows
  obtain ⟨_, _, _, _, _, _, _, hdense⟩ := hknows
  have habsent : s.space.pgdir.present v = none := by
    have hnot := mt (hdense v).mp (Nat.lt_irrefl v)
    simpa using hnot
  unfold allocTurn at hpanic
  split at hpanic
  · cases hpanic
  · rename_i q m1 hq
    simp only [mappages_page] at hpanic
    obtain ⟨result, hmap⟩ := mapPage_total
      (m := { m1 with freelist := free.table }.setFrame q zeroPage) q userFlags habsent
    rw [hmap] at hpanic
    cases hpanic

end

/-- When calls of `sbrk` do not overlap and `mappages` gets its page tables, there
is no "remap", the ranges returned are disjoint, and the size grows by the sum of
the successful calls. -/
theorem concurrent_sbrk_adds_up {start final : State T} {labels : List (Act T)}
    (hstart : Start start) (halone : Meets step OneByOne start labels)
    (hrun : run step start labels = some final) :
    (∀ t free, ¬ Remaps final t free) ∧
      final.results.Pairwise (fun later earlier => ∀ x, ¬ (Covers later x ∧ Covers earlier x)) ∧
      ((∀ t, final.pc t = .user) →
        (final.space.sz : Int) = start.space.sz + (final.results.map Prod.snd).sum) := by
  have hinv : Inv start.space.sz final :=
    run_invariant (fun _ _ _ h hguard hstep => inv_step h hguard hstep) hstart.inv halone hrun
  refine ⟨fun t free => hinv.not_remaps, hinv.order.imp ?_, fun _ => hinv.total⟩
  rintro later earlier hbelow x ⟨hlater, hearlier⟩
  have hlow := hlater.1
  have hhigh := hearlier.2
  omega

def twoThreads (sz : Nat) : State Bool :=
  ⟨{ onePage with sz := sz }, fun _ => .user, []⟩

theorem twoThreads_start {sz : Nat} (h : pages sz = 1) (hsz : sz ≤ kernbase) :
    Start (twoThreads sz) where
  size := hsz
  dense := by
    have hone : pages onePage.sz = 1 := by decide
    have hdense := onePage_whole.dense
    rw [hone, ← h] at hdense
    exact hdense
  user := fun _ => rfl
  results := rfl

def wholeCall (t : Bool) (n : Int) (fresh : List Nat) : List (Act Bool) :=
  [.call t n, .grow t] ++ fresh.map (fun v => .page t (ample v)) ++ [.page t (ample 0), .setSz t]

theorem concurrent_sbrk_adds_up_one_by_one :
    ∃ final, run step (twoThreads 4096) (wholeCall false 5000 [1, 2] ++ wholeCall true 100 []) =
        some final ∧ final.results = [(9096, 100), (4096, 5000)] ∧ (final.space.sz : Int) = 9196 ∧
      final.results.Pairwise (fun later earlier => ∀ x, ¬ (Covers later x ∧ Covers earlier x)) := by
  obtain ⟨final, hrun, hresults, hfalse, htrue⟩ : ∃ final, run step (twoThreads 4096)
      (wholeCall false 5000 [1, 2] ++ wholeCall true 100 []) = some final ∧
      final.results = [(9096, 100), (4096, 5000)] ∧ final.pc false = .user ∧
      final.pc true = .user := by
    decide +kernel
  obtain ⟨_, hdisjoint, htotal⟩ := concurrent_sbrk_adds_up
    (twoThreads_start (by decide) (by decide)) (by decide +kernel) hrun
  refine ⟨final, hrun, hresults, ?_, hdisjoint⟩
  rw [htotal (Bool.forall_bool.mpr ⟨hfalse, htrue⟩), hresults]
  rfl

/-- Two threads read the size before either has stored it. With a new page each
the second one panics; without, both get the same address. -/
theorem overlapping_sbrk_remaps_or_loses : Start (twoThreads 4096) ∧ Start (twoThreads 4000) ∧
    (∃ s, run step (twoThreads 4096) [.call false 4096, .call true 4096, .grow false, .grow true,
        .page false (ample 1)] = some s ∧ Remaps s true (ample 2)) ∧
    ∃ s, run step (twoThreads 4000) [.call false 10, .call true 10, .grow false, .grow true,
        .page false (ample 1), .page true (ample 1), .setSz false, .setSz true] = some s ∧
      s.results = [(4000, 10), (4000, 10)] ∧ s.space.sz = 4010 := by
  refine ⟨twoThreads_start (by decide) (by decide), twoThreads_start (by decide) (by decide), ?_,
    by decide +kernel⟩
  obtain ⟨s, hrun, hpc, hnone⟩ : ∃ s, run step (twoThreads 4096) [.call false 4096,
      .call true 4096, .grow false, .grow true, .page false (ample 1)] = some s ∧
      s.pc true = .allocuvm 4096 4096 4096 8192 1 ∧
      (allocTurn (ample 2) 1 s.space.pgdir s.space.mem).isNone := by
    decide +kernel
  exact ⟨s, hrun, 4096, 4096, 4096, 8192, 1, hpc, by decide, Option.isNone_iff_eq_none.mp hnone⟩

end Xv6.Sbrk
