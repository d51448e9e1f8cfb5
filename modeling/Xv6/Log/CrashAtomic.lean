import Xv6.Log.Recovery

/-! The block writes of `commit` and of `recover_from_log`, and whole runs with
any number of crashes. -/
namespace Xv6.Log
open Function Replay Transition

attribute [local simp] State.booted Bcache.setBuf recoverStep

variable {home : Nat}

section

variable {s s' : State} {t : Tid} {tail : Nat}

variable {pins : List Nat}

theorem not_mem_of_home {j : Nat} (hpins : ∀ b ∈ pins, Home b)
    (hj : j + 1 < nlog) : logstart + j + 1 ∉ pins :=
  fun hmem => not_home_log hj (hpins _ hmem)

theorem logstart_not_mem (hpins : ∀ b ∈ pins, Home b) : logstart ∉ pins :=
  fun hmem => home_ne_logstart (hpins _ hmem) rfl

theorem getElem?_lt {items : List Nat} {j b : Nat} (h : items[j]? = some b) : j < items.length :=
  (List.getElem?_eq_some_iff.mp h).1

theorem logstart_ne (j : Nat) : logstart ≠ logstart + j + 1 := by
  omega

theorem logging_turn {disk : Disk} {c : Bcache} (hrec : Recoverable s.disk s.stable)
    (h : Logging s tail) (hhome : s.lh[tail]? = some home)
    (hturn : writeLogTurn s.disk s.bcache t tail home = some (disk, c)) :
    Recoverable disk s.stable ∧
      Logging { s with disk := disk, bcache := c, pc := .writeLog t (tail + 1) }
        (tail + 1) := by
  have htail := getElem?_lt hhome
  have hmem := List.mem_of_getElem? hhome
  -- a log with 30 blocks cannot get here twice: no buffer is left for the log block
  have hsmall : tail + 1 < nlog := by
    rcases Nat.eq_zero_or_pos tail with rfl | hpos
    · decide
    · have := h.room hpos
      omega
  obtain ⟨rfl, hcached, hroom⟩ :=
    writeLogTurn_spec h.cached h.nodup (not_mem_of_home h.home hsmall) hmem hturn
  have hhead : headOf (update s.disk (logstart + tail + 1) (s.current home) logstart) =
      [] := by
    rw [update_of_ne (logstart_ne tail)]
    exact h.head
  refine ⟨Recoverable.of_empty hhead fun b hb => ?_, ?_⟩
  · have hne : b ≠ logstart + tail + 1 := by
      rintro rfl
      exact not_home_log hsmall hb
    rw [update_of_ne hne]
    exact hrec.rest b hb (by simp [h.head])
  · refine { h with
      head := hhead, cached := hcached, copied := ?_, room := (fun _ => hroom), tail := htail }
    intro j b hj hb
    by_cases hjt : j = tail
    · subst hjt
      rw [hhome] at hb
      cases hb
      exact update_self _ _ _
    · have hne : logstart + j + 1 ≠ logstart + tail + 1 := by omega
      simp only [update_of_ne hne]
      exact h.copied j b (by omega) hb

theorem logging_head {disk : Disk} {c : Bcache} (hrec : Recoverable s.disk s.stable)
    (h : Logging s tail) (hdone : s.lh[tail]? = none)
    (hhead : writeHead s.disk s.bcache t s.lh = some (disk, c)) :
    let next := { s with
      disk := disk, bcache := c, pc := .installTrans t 0, heads := s.heads + 1 }
    Recoverable disk next.stable ∧ Installing next 0 s.lh := by
  intro next
  obtain ⟨⟨old, rfl⟩, hcached⟩ := writeHead_spec h.cached (logstart_not_mem h.home) hhead
  have htail : tail = s.lh.length :=
    le_antisymm h.tail (List.getElem?_eq_none_iff.mp hdone)
  have hroom : s.lh.length < nlog := by
    refine h.room ?_
    rw [htail]
    exact List.length_pos_iff.mpr h.nonempty
  have hstable : next.stable = s.current := by
    have htake : s.commits.take (s.heads + 1) = s.commits := by
      rw [← h.heads, List.take_length]
    simp only [next, State.stable, State.current, htake, h.pending, writes_append, writes_nil,
      List.append_nil]
  have hread : headOf (update s.disk logstart (putHead old s.lh) logstart) = s.lh := by
    rw [update_self, headOf_putHead hroom h.home]
  rw [hstable]
  refine ⟨⟨?_, ?_, ?_, ?_⟩, h.quiet, hread, ?_, by simp⟩
  · rw [hread]
    exact h.home
  · rw [hread]
    exact hroom
  · intro b hb hnot
    rw [hread] at hnot
    rw [update_of_ne (home_ne_logstart hb), h.rest b hnot]
    exact hrec.rest b hb (by simp [h.head])
  · intro j b hb
    rw [hread] at hb
    rw [update_of_ne (logstart_ne j).symm]
    have hj := getElem?_lt hb
    exact h.copied j b (by omega) hb
  · rw [hstable]
    exact hcached

theorem installing_turn {disk : Disk} {c : Bcache}
    (pins' : List Nat) {pc : Pc} (hrec : Recoverable s.disk s.stable)
    (h : Installing s tail pins) (hhome : s.lh[tail]? = some home) (hsub : ∀ b ∈ pins, b ∈ s.lh)
    (hpins : ∀ b, b ∈ pins' ↔ b ∈ pins ∧ b ≠ home)
    (hturn : installTurn s.disk s.bcache t tail home = some (disk, c)) :
    Recoverable disk s.stable ∧
      Installing { s with disk := disk, bcache := c, pc := pc } (tail + 1) pins' := by
  have hlh : ∀ b ∈ s.lh, Home b := by
    rw [← h.head]
    exact hrec.home
  have hroom : s.lh.length < nlog := by
    rw [← h.head]
    exact hrec.room
  have htail := getElem?_lt hhome
  have hhome' := hlh home (List.mem_of_getElem? hhome)
  have hlog : ∀ j, j < s.lh.length → logstart + j + 1 ≠ home := by
    intro j hj heq
    rw [← heq] at hhome'
    exact not_home_log (by omega) hhome'
  obtain ⟨rfl, hcached⟩ := installTurn_spec h.cached
    (not_mem_of_home (fun b hb => hlh b (hsub b hb)) (by omega)) hpins hturn
  have hdata : s.disk (logstart + tail + 1) = s.stable home :=
    hrec.logged tail home (by rw [h.head, hhome])
  rw [hdata] at hcached ⊢
  have hread : headOf (update s.disk home (s.stable home) logstart) = s.lh := by
    rw [update_of_ne (home_ne_logstart hhome').symm, h.head]
  refine ⟨⟨?_, ?_, ?_, ?_⟩, h.quiet, hread, hcached, ?_⟩
  · rw [hread]
    exact hlh
  · rw [hread]
    exact hroom
  · intro b hb hnot
    rw [hread] at hnot
    have hne : b ≠ home := by
      rintro rfl
      exact hnot (List.mem_of_getElem? hhome)
    rw [update_of_ne hne]
    exact hrec.rest b hb (by rwa [h.head])
  · intro j b hb
    rw [hread] at hb
    rw [update_of_ne (hlog j (getElem?_lt hb))]
    exact hrec.logged j b (by rwa [h.head])
  · intro b hb
    by_cases hbh : b = home
    · subst hbh
      exact update_self _ _ _
    · simp only [update_of_ne hbh]
      refine h.installed b ?_
      rw [List.take_add_one, hhome] at hb
      rcases List.mem_append.mp hb with hold | hnew
      · exact hold
      · exact absurd (List.mem_singleton.mp hnew) hbh

theorem installing_clear {disk : Disk} {c : Bcache}
    (hrec : Recoverable s.disk s.stable) (h : Installing s tail pins)
    (hdone : s.lh[tail]? = none) (hsub : ∀ b ∈ pins, b ∈ s.lh)
    (hhead : writeHead s.disk s.bcache t [] = some (disk, c)) :
    headOf (disk logstart) = [] ∧ (∀ b, Home b → disk b = s.stable b) ∧
      Cached c disk pins s.stable := by
  have hlh : ∀ b ∈ s.lh, Home b := by
    rw [← h.head]
    exact hrec.home
  obtain ⟨⟨old, rfl⟩, hcached⟩ :=
    writeHead_spec h.cached (logstart_not_mem fun b hb => hlh b (hsub b hb)) hhead
  refine ⟨by rw [update_self, headOf_putHead (by decide) (by simp)], fun b hb => ?_, hcached⟩
  rw [update_of_ne (home_ne_logstart hb)]
  by_cases hmem : b ∈ s.lh
  · refine h.installed b ?_
    rwa [List.take_of_length_le (List.getElem?_eq_none_iff.mp hdone)]
  · exact hrec.rest b hb (by rwa [h.head])

theorem mem_drop_succ {items : List Nat} (hnodup : items.Nodup)
    (hhome : items[tail]? = some home) (b : Nat) :
    b ∈ items.drop (tail + 1) ↔ b ∈ items.drop tail ∧ b ≠ home := by
  obtain ⟨hlt, rfl⟩ := List.getElem?_eq_some_iff.mp hhome
  have hdrop := List.drop_eq_getElem_cons hlt
  have hnodup' : (items.drop tail).Nodup := hnodup.sublist (List.drop_sublist _ _)
  rw [hdrop] at hnodup'
  rw [hdrop, List.mem_cons]
  constructor
  · intro hb
    refine ⟨Or.inr hb, ?_⟩
    rintro rfl
    exact (List.nodup_cons.mp hnodup').1 hb
  · rintro ⟨rfl | hb, hne⟩
    · exact absurd rfl hne
    · exact hb

theorem inv_commit (h : Inv s) (hstep : commitStep s = some s') : Inv s' := by
  have hphase := h.phase
  unfold commitStep at hstep
  split at hstep
  · rename_i t tail hpc
    simp only [Phase, hpc] at hphase
    obtain ⟨hcommitting, hlogging⟩ := hphase
    split at hstep
    · rename_i home hhome
      obtain ⟨⟨disk, c⟩, hturn, rfl⟩ := Option.map_eq_some_iff.mp hstep
      obtain ⟨hrec, hlogging'⟩ := logging_turn h.recoverable hlogging hhome hturn
      exact ⟨hrec, h.heads_le, h.ordered, hcommitting, hlogging'⟩
    · rename_i hdone
      obtain ⟨⟨disk, c⟩, hhead, rfl⟩ := Option.map_eq_some_iff.mp hstep
      obtain ⟨hrec, hinstalling⟩ := logging_head h.recoverable hlogging hdone hhead
      exact ⟨hrec, hlogging.heads.ge, h.ordered, hcommitting, hlogging.heads.symm,
        hlogging.pending, hlogging.nodup, hinstalling⟩
  · rename_i t tail hpc
    simp only [Phase, hpc] at hphase
    obtain ⟨hcommitting, hheads, hpending, hnodup, hinstalling⟩ := hphase
    have hsub : ∀ b ∈ s.lh.drop tail, b ∈ s.lh := fun b hb => List.mem_of_mem_drop hb
    split at hstep
    · rename_i home hhome
      obtain ⟨⟨disk, c⟩, hturn, rfl⟩ := Option.map_eq_some_iff.mp hstep
      obtain ⟨hrec, hinstalling'⟩ := installing_turn _ h.recoverable hinstalling hhome hsub
        (mem_drop_succ hnodup hhome) hturn
      exact ⟨hrec, h.heads_le, h.ordered, hcommitting, hheads, hpending, hnodup, hinstalling'⟩
    · rename_i hdone
      obtain ⟨⟨disk, c⟩, hhead, rfl⟩ := Option.map_eq_some_iff.mp hstep
      obtain ⟨hempty, hrest, hcached⟩ :=
        installing_clear h.recoverable hinstalling hdone hsub hhead
      rw [List.drop_eq_nil_of_le (List.getElem?_eq_none_iff.mp hdone)] at hcached
      exact ⟨Recoverable.of_empty hempty hrest, h.heads_le, h.ordered, hcommitting,
        hinstalling.quiet, hempty, hheads, hpending, rfl, hcached⟩
  · rename_i hpc
    simp only [Phase, hpc] at hphase
    obtain ⟨_, hquiet, hhead, hheads, hpending, hlh, hcached⟩ := hphase
    cases hstep
    refine ⟨h.recoverable, h.heads_le, h.ordered, ⟨hhead, hheads, ?_, ?_, ?_, ?_, ?_, rfl, ?_⟩⟩
    · simp [hlh]
    · simp [hlh]
    · simp only [hlh]
      exact hcached.retarget (by simp)
    · simp [hpending]
    · simp [hquiet.ops, hquiet.outstanding]
    · intro t i data hcall
      rw [show s.calls t = none from hquiet.calls t] at hcall
      cases hcall
  · cases hstep

end

section

variable {disk disk' : Disk} {c c' : Bcache} {t : Tid} {b : Nat}

theorem busy_brelse (c : Bcache) (i j : BufId) :
    ((brelse c i).buf j).busy = if j = i then none else (c.buf j).busy := by
  by_cases hji : j = i
  · subst hji
    simp [brelse]
  · simp [brelse, hji]

theorem busy_written (disk : Disk) (c : Bcache) (i : BufId) (data : Block) (j : BufId) :
    ((bwrite disk (c.store i data) i).2.buf j).busy = (c.buf j).busy := by
  unfold bwrite
  by_cases hji : j = i
  · subst hji
    split <;> simp [Bcache.store]
  · split <;> simp [Bcache.store, hji]

theorem Idle.of_bread {i : BufId} (h : Idle c) (hread : bread disk c t b = some (i, c'))
    {j : BufId} (hj : j ≠ i) : (c'.buf j).busy = none := by
  rw [(bread_busy hread).2.2 j hj]
  exact h j

theorem Idle.installTurn {tail : Nat} (h : Idle c)
    (hturn : installTurn disk c t tail home = some (disk', c')) : Idle c' := by
  obtain ⟨⟨lbuf, c1⟩, hfirst, hturn⟩ := Option.bind_eq_some_iff.mp hturn
  obtain ⟨⟨dbuf, c2⟩, hsecond, hresult⟩ := Option.map_eq_some_iff.mp hturn
  obtain ⟨_, rfl⟩ := Prod.mk.inj hresult
  intro j
  simp only [busy_brelse, busy_written]
  split_ifs with hd hl
  · rfl
  · rfl
  · rw [(bread_busy hsecond).2.2 j hd]
    exact h.of_bread hfirst hl

theorem Idle.readHead {lh : List Nat} (h : Idle c)
    (hhead : readHead disk c t = some (lh, c')) : Idle c' := by
  obtain ⟨⟨i, c1⟩, hread, hresult⟩ := Option.map_eq_some_iff.mp hhead
  obtain ⟨_, rfl⟩ := Prod.mk.inj hresult
  intro j
  simp only [busy_brelse]
  split_ifs with hi
  · rfl
  · exact h.of_bread hread hi

theorem bread_total (h : Coherent c disk) (hblock : ∀ i, (c.buf i).blockno = some b →
    (c.buf i).busy = none) (hfree : ∃ i, (c.buf i).busy = none ∧ (c.buf i).dirty = false) :
    ∃ i c', bread disk c t b = some (i, c') := by
  unfold bread
  split
  · rename_i i hfind
    rw [if_pos (hblock i (find_some hfind))]
    exact ⟨_, _, rfl⟩
  · obtain ⟨i, hi⟩ := hfree
    have hsome : c.recycle.isSome = true := by
      refine List.find?_isSome.mpr ⟨i, List.mem_reverse.mpr (h.listed i), ?_⟩
      simpa using hi
    obtain ⟨j, hj⟩ := Option.isSome_iff_exists.mp hsome
    rw [hj]
    exact ⟨_, _, rfl⟩

variable {target : Disk}

section

variable (h : Cached c disk [] target)
include h

theorem Cached.clean_all (i : BufId) :
    (c.buf i).dirty = false := by
  by_contra hdirty
  obtain ⟨b, hb, _⟩ := h.dirty i (by simpa using hdirty)
  cases hb

theorem bread_idle (hidle : Idle c) (t : Tid)
    (b : Nat) : ∃ i c', bread disk c t b = some (i, c') :=
  bread_total h.toCoherent (fun i _ => hidle i) ⟨Fin.last _, hidle _, h.clean_all _⟩

theorem installTurn_total {tail : Nat}
    (hidle : Idle c) (hne : logstart + tail + 1 ≠ home) :
    (installTurn disk c t tail home).isSome = true := by
  obtain ⟨lbuf, c1, hfirst⟩ := bread_idle h hidle t (logstart + tail + 1)
  obtain ⟨h1, hlbuf⟩ := h.bread hfirst
  have hblock : ∀ i, (c1.buf i).blockno = some home → (c1.buf i).busy = none := by
    intro i hi
    refine hidle.of_bread hfirst ?_
    rintro rfl
    rw [hlbuf] at hi
    exact hne (Option.some.inj hi)
  obtain ⟨j, hj⟩ := exists_ne lbuf
  obtain ⟨dbuf, c2, hsecond⟩ := bread_total (t := t) h1.toCoherent hblock
    ⟨j, hidle.of_bread hfirst hj, h1.clean_all j⟩
  simp [Log.installTurn, hfirst, hsecond]

theorem writeHead_total (hidle : Idle c)
    (lh : List Nat) : (writeHead disk c t lh).isSome = true := by
  obtain ⟨i, c1, hread⟩ := bread_idle h hidle t logstart
  simp [Log.writeHead, hread]

theorem readHead_total (hidle : Idle c) :
    (readHead disk c t).isSome = true := by
  obtain ⟨i, c1, hread⟩ := bread_idle h hidle t logstart
  simp [Log.readHead, hread]

end

end

/-- After recovery the home blocks are those of the commits that have completed
their first `write_head`, a prefix of all commits, and no operation has a write
in these and another one elsewhere. -/
structure Atomic (s next : State) : Prop where
  heads_le : s.heads ≤ s.commits.length
  home : ∀ b, Home b → next.disk b = s.stable b
  whole : ∀ g ∈ s.commits.take s.heads, ∀ h ∈ s.commits.drop s.heads ++ [s.pending],
    ∀ w ∈ g, ∀ w' ∈ h, w.op ≠ w'.op

/-- The step that completes a recovery. -/
def CrashAtomic (s : State) (_ : Act) (next : State) : Prop :=
  ∀ tail, s.pc = .recoverTrans tail → next.pc = .running → Atomic s next

section

variable {s s' : State} {tail : Nat}

theorem Ordered.whole (h : Ordered s.commits s.pending s.ops s.nextOp) :
    ∀ g ∈ s.commits.take s.heads, ∀ p ∈ s.commits.drop s.heads ++ [s.pending],
      ∀ w ∈ g, ∀ w' ∈ p, w.op ≠ w'.op := by
  have hgroups := h.groups
  rw [← List.take_append_drop s.heads s.commits, List.append_assoc] at hgroups
  intro g hg p hp w hw w' hw'
  exact Nat.ne_of_lt ((List.pairwise_append.mp hgroups).2.2 g hg p hp w hw w' hw')

theorem atomic_clear {disk : Disk} {c : Bcache} (h : Inv s)
    (hpc : s.pc = .recoverTrans tail) (hdone : s.lh[tail]? = none)
    (hhead : writeHead s.disk s.bcache initTid [] = some (disk, c)) :
    headOf (disk logstart) = [] ∧ Cached c disk [] s.stable ∧
      ∀ next : State, next.disk = disk → Atomic s next := by
  have hphase := h.phase
  simp only [Phase, hpc] at hphase
  obtain ⟨_, _, hinstalling⟩ := hphase
  obtain ⟨hempty, hrest, hcached⟩ := installing_clear h.recoverable hinstalling hdone (by simp)
    hhead
  refine ⟨hempty, hcached, fun next hnext => ⟨h.heads_le, ?_, h.ordered.whole⟩⟩
  rw [hnext]
  exact hrest

theorem inv_recover (h : Inv s) (hstep : recoverStep s = some s') :
    Inv s' ∧ CrashAtomic s .recover s' := by
  have hphase := h.phase
  unfold recoverStep at hstep
  split at hstep
  · rename_i hpc
    simp only [Phase, hpc] at hphase
    obtain ⟨hquiet, hcommitting, hcached, hidle⟩ := hphase
    obtain ⟨⟨lh, c⟩, hread, rfl⟩ := Option.map_eq_some_iff.mp hstep
    obtain ⟨rfl, hcached'⟩ := readHead_spec hcached (by simp) hread
    refine ⟨⟨h.recoverable, h.heads_le, h.ordered, hcommitting, hidle.readHead hread, hquiet, rfl,
      hcached', by simp⟩, fun tail hpc' => ?_⟩
    rw [hpc] at hpc'
    cases hpc'
  · rename_i tail hpc
    simp only [Phase, hpc] at hphase
    obtain ⟨hcommitting, hidle, hinstalling⟩ := hphase
    split at hstep
    · rename_i home hhome
      obtain ⟨⟨disk, c⟩, hturn, rfl⟩ := Option.map_eq_some_iff.mp hstep
      obtain ⟨hrec, hinstalling'⟩ := installing_turn [] h.recoverable hinstalling hhome
        (by simp) (by simp) hturn
      refine ⟨⟨hrec, h.heads_le, h.ordered, hcommitting, hidle.installTurn hturn, hinstalling'⟩,
        fun _ _ hrunning => ?_⟩
      cases hrunning
    · rename_i hdone
      obtain ⟨⟨disk, c⟩, hhead, rfl⟩ := Option.map_eq_some_iff.mp hstep
      obtain ⟨hempty, hcached, hatomic⟩ := atomic_clear h hpc hdone hhead
      have hquiet := hinstalling.quiet
      refine ⟨⟨Recoverable.of_empty hempty fun _ _ => rfl, le_rfl, ⟨by simp, ?_, by simp, ?_⟩, ?_⟩,
        fun _ _ _ => hatomic _ rfl⟩
      · simp
      · simp [hquiet.ops]
      · refine ⟨hempty, rfl, by simp, by simp, hcached.retarget (by simp), by simp, ?_, hcommitting,
          ?_⟩
        · simp [hquiet.ops, hquiet.outstanding]
        · intro t i data hcall
          rw [show s.calls t = none from hquiet.calls t] at hcall
          cases hcall
  · cases hstep

theorem recover_enabled (h : Inv s) (hpc : ¬ s.booted) :
    (recoverStep s).isSome = true := by
  have hphase := h.phase
  cases hcase : s.pc with
  | readHead =>
    simp only [Phase, hcase] at hphase
    obtain ⟨_, _, hcached, hidle⟩ := hphase
    simp [hcase, readHead_total hcached hidle]
  | recoverTrans tail =>
    simp only [Phase, hcase] at hphase
    obtain ⟨_, hidle, hinstalling⟩ := hphase
    cases hhome : s.lh[tail]? with
    | none => simp [hcase, hhome, writeHead_total hinstalling.cached hidle]
    | some home =>
      have hroom := h.recoverable.room
      have hblock := h.recoverable.home home
      rw [hinstalling.head] at hroom hblock
      have htail := getElem?_lt hhome
      have hne : logstart + tail + 1 ≠ home := by
        rintro rfl
        exact not_home_log (by omega) (hblock (List.mem_of_getElem? hhome))
      simp [hcase, hhome, installTurn_total hinstalling.cached hidle hne]
  | running | writeLog t tail | installTrans t tail | finish => simp [hcase] at hpc

end

section

variable {s s' : State} {a : Act}

theorem crashAtomic_of_pc (h : ∀ tail, s.pc ≠ .recoverTrans tail) : CrashAtomic s a s' :=
  fun tail hpc => absurd hpc (h tail)

theorem Phase.booted_of_busy {t : Tid} {i : BufId} (h : Phase s)
    (hbusy : (s.bcache.buf i).busy = some t) : s.booted := by
  by_contra hbooted
  have hidle : Idle s.bcache := by
    cases hpc : s.pc <;> simp only [State.booted, hpc, not_true_eq_false] at hbooted <;>
      simp only [Phase, hpc] at h
    · exact h.2.2.2
    · exact h.2.1
  rw [hidle i] at hbusy
  cases hbusy

theorem cached_binit (disk target : Disk) : Cached (binit : Bcache) disk [] target where
  listed := by simp [binit]
  unique := by simp [binit]
  clean := by simp [binit]
  pinned := by simp
  dirty := by simp [binit]

theorem inv_crash (h : Inv s) : Inv (crash s) where
  recoverable := h.recoverable
  heads_le := h.heads_le
  ordered := ⟨h.ordered.groups, by simp [crash], h.ordered.old, by simp [crash]⟩
  phase := ⟨⟨rfl, rfl, fun _ => rfl⟩, rfl, cached_binit _ _, fun _ => rfl⟩

theorem inv_boot {disk : Disk} (hdisk : headOf (disk logstart) = []) :
    Inv (boot disk) where
  recoverable := Recoverable.of_empty hdisk fun _ _ => rfl
  heads_le := le_rfl
  ordered := ⟨by simp [boot], by simp [boot], by simp [boot], by simp [boot]⟩
  phase := ⟨⟨rfl, rfl, fun _ => rfl⟩, rfl, cached_binit _ _, fun _ => rfl⟩

theorem inv_step (h : Inv s) (hstep : step s a = some s') :
    Inv s' ∧ CrashAtomic s a s' := by
  have hbooted : s.booted → CrashAtomic s a s' := by
    refine fun hbooted => crashAtomic_of_pc fun tail hpc => ?_
    simp [hpc] at hbooted
  have hop : ∀ {t}, (s.op t).isSome = true → CrashAtomic s a s' := by
    refine fun hop => crashAtomic_of_pc fun tail hpc => ?_
    rw [(h.phase.of_op hop).1] at hpc
    cases hpc
  cases a with
  | beginOp t =>
    obtain ⟨hguard, hcall⟩ := Option.ite_none_right_eq_some.mp hstep
    exact ⟨inv_beginOp h hguard.1 hcall, hbooted hguard.1⟩
  | bread t b =>
    obtain ⟨hguard, hcall⟩ := Option.ite_none_right_eq_some.mp hstep
    obtain ⟨⟨i, c⟩, hread, rfl⟩ := Option.map_eq_some_iff.mp hcall
    exact ⟨inv_bread h hguard.1 hread, hbooted hguard.1⟩
  | logWrite t i data =>
    obtain ⟨⟨hguard, _, hbusy, hhome⟩, hcall⟩ := Option.ite_none_right_eq_some.mp hstep
    exact ⟨inv_logWrite h hguard hbusy hhome hcall, hop hguard⟩
  | append t =>
    simp only [step] at hstep
    split at hstep
    · rename_i t' op i data hentry hcall
      obtain ⟨b, hb, rfl⟩ := Option.map_eq_some_iff.mp hstep
      exact ⟨inv_append h hentry hcall hb, hop (t := t) (by rw [hentry]; rfl)⟩
    · cases hstep
  | brelse t i =>
    obtain ⟨⟨hbusy, hcall⟩, rfl⟩ := taken hstep
    have hguard := h.phase.booted_of_busy hbusy
    exact ⟨inv_brelse h hguard hbusy hcall, hbooted hguard⟩
  | endOp t =>
    simp only [step] at hstep
    split at hstep
    · rename_i entry hentry
      obtain ⟨hcall, hend⟩ := Option.ite_none_right_eq_some.mp hstep
      exact ⟨inv_endOp h hentry hcall hend, hop (t := t) (by rw [hentry]; rfl)⟩
    · cases hstep
  | commit =>
    refine ⟨inv_commit h hstep, crashAtomic_of_pc fun tail hpc => ?_⟩
    simp [step, commitStep, hpc] at hstep
  | recover => exact inv_recover h hstep
  | crash =>
    cases hstep
    refine ⟨inv_crash h, fun tail _ hrunning => ?_⟩
    cases hrunning

theorem recover_completes (h : Inv s) {tail : Nat} (hpc : s.pc = .recoverTrans tail) :
    ∃ k done, run step s (List.replicate k .recover) = some done ∧ done.pc = .running ∧
      Atomic s done := by
  induction hleft : s.lh.length - tail generalizing s tail with
  | zero =>
    have hdone : s.lh[tail]? = none := List.getElem?_eq_none_iff.mpr (by omega)
    obtain ⟨next, hnext⟩ := Option.isSome_iff_exists.mp
      (recover_enabled h (by simp [hpc]))
    have hatomic := (inv_recover h hnext).2
    simp only [recoverStep, hpc, hdone] at hnext
    obtain ⟨result, hhead, rfl⟩ := Option.map_eq_some_iff.mp hnext
    refine ⟨1, _, run_cons_eq_some.mpr ⟨_, ?_, rfl⟩, rfl, hatomic tail hpc rfl⟩
    simp [step, hpc, hdone, hhead]
  | succ left ih =>
    have htail : tail < s.lh.length := by omega
    obtain ⟨next, hnext⟩ := Option.isSome_iff_exists.mp
      (recover_enabled h (by simp [hpc]))
    have hinv := (inv_recover h hnext).1
    have hstep : step s .recover = some next := hnext
    simp only [recoverStep, hpc, List.getElem?_eq_getElem htail] at hnext
    obtain ⟨result, _, rfl⟩ := Option.map_eq_some_iff.mp hnext
    obtain ⟨k, done, hrun, hdone, hatomic⟩ := ih hinv rfl (by simp only; omega)
    exact ⟨k + 1, done, run_cons_eq_some.mpr ⟨_, hstep, hrun⟩, hdone, hatomic.heads_le,
      hatomic.home, hatomic.whole⟩

theorem crash_completes (h : Inv s) :
    ∃ k done, run step s (.crash :: List.replicate k .recover) = some done ∧
      done.pc = .running ∧ Atomic s done := by
  have hcrash := inv_crash h
  obtain ⟨next, hnext⟩ := Option.isSome_iff_exists.mp
    (recover_enabled hcrash (by simp [crash]))
  have hinv := (inv_recover hcrash hnext).1
  have hstep : step (crash s) .recover = some next := hnext
  have hpc : (crash s).pc = .readHead := rfl
  simp only [recoverStep, hpc] at hnext
  obtain ⟨result, _, rfl⟩ := Option.map_eq_some_iff.mp hnext
  obtain ⟨k, done, hrun, hdone, hatomic⟩ := recover_completes hinv rfl
  exact ⟨k + 1, done, run_cons_eq_some.mpr ⟨crash s, rfl, run_cons_eq_some.mpr ⟨_, hstep, hrun⟩⟩,
    hdone, hatomic.heads_le, hatomic.home, hatomic.whole⟩

end

/-- Crash atomicity of the log: in every run from a new disk, with crashes
anywhere, every recovery that completes gives the home blocks of the commits
that have written their header, and after a crash in any state recovery does
complete. -/
theorem log_crash_atomicity {disk : Disk}
    {labels : List Act} {final : State} (hdisk : headOf (disk logstart) = [])
    (hrun : run step (boot disk) labels = some final) :
    Along step CrashAtomic (boot disk) labels ∧
      ∃ k done, run step final (.crash :: List.replicate k .recover) = some done ∧
        done.pc = .running ∧ Atomic final done := by
  have hmeets : Meets step (fun _ _ => True) (boot disk) labels :=
    meets_of_forall (fun _ _ _ => trivial) _
  have hboot := inv_boot hdisk
  refine ⟨along_of_invariant (fun s a next h _ hnext => inv_step h hnext) hboot hmeets, ?_⟩
  exact crash_completes
    (run_invariant (fun s a next h _ hnext => (inv_step h hnext).1) hboot hmeets hrun)

/-- Two operations of two threads share a commit. The machine crashes after the
first block is installed, and again in the recovery. -/
def crashInCommit : List Act :=
  [.recover, .recover, .beginOp 0, .beginOp 1, .bread 0 40, .logWrite 0 1 (fun _ => 7), .bread 1 41,
    .logWrite 1 2 (fun _ => 8), .append 1, .append 0, .brelse 0 1, .endOp 0, .brelse 1 2, .endOp 1,
    .commit, .commit, .commit, .commit, .crash, .recover, .recover, .crash, .recover, .recover,
    .recover, .recover]

theorem log_crash_atomicity_crash_in_commit :
    ∃ final, run step (boot fun _ _ => 0) crashInCommit = some final ∧
      final.disk 40 0 = 7 ∧ final.disk 41 0 = 8 ∧
      Along step CrashAtomic (boot fun _ _ => 0) crashInCommit := by
  obtain ⟨final, hfinal, h40, h41⟩ : ∃ final, run step (boot fun _ _ => 0)
      crashInCommit = some final ∧ final.disk 40 0 = 7 ∧ final.disk 41 0 = 8 := by
    decide +kernel
  exact ⟨final, hfinal, h40, h41, (log_crash_atomicity rfl hfinal).1⟩

/-- After recovery the disk is behind the operations only in blocks that the cache pins. -/
theorem Inv.cached_current {s : State} (h : Inv s)
    (hbooted : s.booted) :
    ∃ pins, Cached s.bcache s.disk pins s.current ∧
      ∀ b, Home b → b ∉ pins → s.disk b = s.current b := by
  have hphase := h.phase
  have hrest := h.recoverable.rest
  have hstable : s.heads = s.commits.length → s.pending = [] → s.current = s.stable := by
    intro hheads hpending
    simp [State.current, State.stable, hheads, hpending, writes]
  cases hpc : s.pc <;> simp only [Phase, hpc] at hphase
  case readHead | recoverTrans => simp [State.booted, hpc] at hbooted
  case running =>
    refine ⟨s.lh, hphase.cached, fun b hb hlh => ?_⟩
    rw [hphase.rest hlh, hrest b hb (by simp [hphase.head])]
  case writeLog =>
    refine ⟨s.lh, hphase.2.cached, fun b hb hlh => ?_⟩
    rw [hphase.2.rest b hlh, hrest b hb (by simp [hphase.2.head])]
  case installTrans t tail =>
    obtain ⟨-, hheads, hpending, -, hinstall⟩ := hphase
    rw [hstable hheads hpending]
    refine ⟨_, hinstall.cached, fun b hb hdrop => ?_⟩
    by_cases hlh : b ∈ s.lh
    · rw [← List.take_append_drop tail s.lh, List.mem_append] at hlh
      exact hinstall.installed b (hlh.resolve_right hdrop)
    · exact hrest b hb (by rwa [hinstall.head])
  case finish =>
    obtain ⟨-, -, hhead, hheads, hpending, -, hcached⟩ := hphase
    rw [hstable hheads hpending]
    exact ⟨[], hcached, fun b hb _ => hrest b hb (by simp [hhead])⟩

/-- Once a recovery is over, `bread` gives the last contents that a `log_write` has stored
in a home block, in every state of every run and also in the middle of a commit. -/
theorem bread_gives_last_write {disk : Disk}
    {labels : List Act} {final : State} (hdisk : headOf (disk logstart) = [])
    (hrun : run step (boot disk) labels = some final) (hbooted : final.booted) {t : Tid}
    {b : Nat} {i : BufId} {c : Bcache} (hb : Home b)
    (hread : bread final.disk final.bcache t b = some (i, c)) :
    (c.buf i).data = final.current b := by
  have hmeets : Meets step (fun _ _ => True) (boot disk) labels :=
    meets_of_forall (fun _ _ _ => trivial) _
  have hinv := run_invariant (fun _ _ _ h _ hnext => (inv_step h hnext).1) (inv_boot hdisk) hmeets
    hrun
  obtain ⟨pins, hcached, hbehind⟩ := hinv.cached_current hbooted
  obtain ⟨hcached', hi⟩ := hcached.bread hread
  by_cases hpin : b ∈ pins
  · exact (hcached'.data_pinned hpin hi).2
  · rw [hcached'.clean hi (hcached'.not_dirty hpin hi), hbehind b hb hpin]

theorem bread_gives_last_write_in_commit :
    ∃ final i c, run step (boot fun _ _ => 0) (crashInCommit.take 16) = some final ∧
      final.disk 40 0 = 0 ∧ bread final.disk final.bcache 0 40 = some (i, c) ∧
      (c.buf i).data = final.current 40 := by
  obtain ⟨final, hfinal, hbooted, hdisk, hsome⟩ : ∃ final, run step
      (boot fun _ _ => 0) (crashInCommit.take 16) = some final ∧ final.booted ∧
      final.disk 40 0 = 0 ∧ (bread final.disk final.bcache 0 40).isSome = true := by
    decide +kernel
  obtain ⟨⟨i, c⟩, hread⟩ := Option.isSome_iff_exists.mp hsome
  exact ⟨final, i, c, hfinal, hdisk, hread,
    bread_gives_last_write rfl hfinal hbooted (by decide) hread⟩

end Xv6.Log
