import Xv6.Log.Log

/-! Crash atomicity of the log. In every state the disk is recoverable: its home
blocks, with the blocks of the log header replaced by the contents of the log,
are those of the commits that have written their header. -/
namespace Xv6.Log
open Function Replay Transition

def writes (groups : List (List Write)) : List (Nat × Block) :=
  groups.flatten.map fun w => (w.block, w.data)

/-- The blocks after the commits that have completed their first `write_head`. -/
def State.stable (s : State) : Disk :=
  replay (writes (s.commits.take s.heads)) s.base

/-- The blocks as the operations see them. -/
def State.current (s : State) : Disk :=
  replay (writes (s.commits ++ [s.pending])) s.base

/-- What recovery needs to give the home blocks of `target`. -/
structure Recoverable (disk target : Disk) : Prop where
  home : ∀ b ∈ headOf (disk logstart), Home b
  room : (headOf (disk logstart)).length < nlog
  rest : ∀ b, Home b → b ∉ headOf (disk logstart) → disk b = target b
  logged : ∀ j b, (headOf (disk logstart))[j]? = some b → disk (logstart + j + 1) = target b

structure Quiet (ops : List (Tid × Nat)) (outstanding : Nat)
    (calls : Tid → Option (BufId × Block)) : Prop where
  ops : ops = []
  outstanding : outstanding = 0
  calls : ∀ t, calls t = none

abbrev State.quiet (s : State) : Prop :=
  Quiet s.ops s.outstanding s.calls

/-- The blocks of `lh` wait in the cache; the log is empty. -/
structure Running (s : State) : Prop where
  head : headOf (s.disk logstart) = []
  heads : s.heads = s.commits.length
  nodup : s.lh.Nodup
  home : ∀ b ∈ s.lh, Home b
  cached : Cached s.bcache s.disk s.lh s.current
  logged : ∀ w ∈ s.pending, w.block ∈ s.lh
  outstanding : s.outstanding = s.ops.length
  committing : s.committing = false
  calls : ∀ t i data, s.calls t = some (i, data) → (s.bcache.buf i).busy = some t ∧
    (∃ b, (s.bcache.buf i).blockno = some b ∧ Home b) ∧ ∃ op, (t, op) ∈ s.ops

/-- The first `tail` blocks of `lh` are in the log. -/
structure Logging (s : State) (tail : Nat) : Prop where
  quiet : s.quiet
  head : headOf (s.disk logstart) = []
  heads : s.commits.length = s.heads + 1
  pending : s.pending = []
  nonempty : s.lh ≠ []
  nodup : s.lh.Nodup
  home : ∀ b ∈ s.lh, Home b
  cached : Cached s.bcache s.disk s.lh s.current
  rest : ∀ b, b ∉ s.lh → s.current b = s.stable b
  copied : ∀ j b, j < tail → s.lh[j]? = some b → s.disk (logstart + j + 1) = s.current b
  room : 0 < tail → s.lh.length < nlog
  tail : tail ≤ s.lh.length

/-- The header is written and the first `tail` blocks are installed. The blocks
`pins` are dirty. -/
structure Installing (s : State) (tail : Nat) (pins : List Nat) : Prop where
  quiet : s.quiet
  head : headOf (s.disk logstart) = s.lh
  cached : Cached s.bcache s.disk pins s.stable
  installed : ∀ b ∈ s.lh.take tail, s.disk b = s.stable b

/-- The buffers are free, as between the steps of the only thread there is. -/
def Idle (c : Bcache) : Prop :=
  ∀ i, (c.buf i).busy = none

def Phase (s : State) : Prop :=
  match s.pc with
  | .running => Running s
  | .writeLog _ tail => s.committing = true ∧ Logging s tail
  | .installTrans _ tail => s.committing = true ∧ s.heads = s.commits.length ∧ s.pending = [] ∧
      s.lh.Nodup ∧ Installing s tail (s.lh.drop tail)
  | .finish => s.committing = true ∧ s.quiet ∧ headOf (s.disk logstart) = [] ∧
      s.heads = s.commits.length ∧ s.pending = [] ∧ s.lh = [] ∧
      Cached s.bcache s.disk [] s.stable
  | .readHead => s.quiet ∧ s.committing = false ∧ Cached s.bcache s.disk [] s.stable ∧
      Idle s.bcache
  | .recoverTrans tail => s.committing = false ∧ Idle s.bcache ∧ Installing s tail []

/-- Operations of an earlier commit have smaller numbers, and those that run now
have larger ones. -/
structure Ordered (commits : List (List Write)) (pending : List Write)
    (ops : List (Tid × Nat)) (nextOp : Nat) : Prop where
  groups : (commits ++ [pending]).Pairwise fun g h => ∀ w ∈ g, ∀ w' ∈ h, w.op < w'.op
  running : ∀ entry ∈ ops, ∀ g ∈ commits, ∀ w ∈ g, w.op < entry.2
  old : ∀ g ∈ commits ++ [pending], ∀ w ∈ g, w.op < nextOp
  fresh : ∀ entry ∈ ops, entry.2 < nextOp

structure Inv (s : State) : Prop where
  recoverable : Recoverable s.disk s.stable
  heads_le : s.heads ≤ s.commits.length
  ordered : Ordered s.commits s.pending s.ops s.nextOp
  phase : Phase s

variable {i : BufId}

section

variable {disk disk' target : Disk} {c c' : Bcache} {t : Tid}
  {tail home : Nat} {pins pins' lh : List Nat}

section

variable (h : Cached c disk pins target)
include h

theorem bread_twice {j : BufId} {c1 c2 : Bcache} {b b' : Nat}
    (hfirst : bread disk c t b = some (i, c1)) (hsecond : bread disk c1 t b' = some (j, c2)) :
    Cached c1 disk pins target ∧ (c1.buf i).blockno = some b ∧ Cached c2 disk pins target ∧
      (c2.buf i).blockno = some b ∧ (c2.buf j).blockno = some b' := by
  obtain ⟨h1, hi⟩ := h.bread hfirst
  obtain ⟨h2, hj⟩ := h1.bread hsecond
  obtain ⟨hbusy, _⟩ := bread_busy hfirst
  obtain ⟨_, hfree, hothers⟩ := bread_busy hsecond
  have hij : i ≠ j := by
    rintro rfl
    rw [hbusy] at hfree
    cases hfree
  refine ⟨h1, hi, h2, ?_, hj⟩
  rw [hothers i hij, hi]

theorem writeLogTurn_spec (hnodup : pins.Nodup)
    (hlog : logstart + tail + 1 ∉ pins) (hhome : home ∈ pins)
    (hturn : writeLogTurn disk c t tail home = some (disk', c')) :
    disk' = update disk (logstart + tail + 1) (target home) ∧
      Cached c' disk' pins target ∧ pins.length < nbuf := by
  obtain ⟨⟨dst, c1⟩, hfirst, hturn⟩ := Option.bind_eq_some_iff.mp hturn
  obtain ⟨⟨src, c2⟩, hsecond, hresult⟩ := Option.map_eq_some_iff.mp hturn
  obtain ⟨h1, hdst1, h2, hdst, hsrc⟩ := bread_twice h hfirst hsecond
  have hdata := (h2.data_pinned hhome hsrc).2
  have hpins : ∀ b, b ∈ pins ↔ b ∈ pins ∧ b ≠ logstart + tail + 1 := by
    intro b
    refine ⟨fun hb => ⟨hb, ?_⟩, And.left⟩
    rintro rfl
    exact hlog hb
  have hwritten := h2.written (target home) hdst hpins
  simp only [hdata] at hresult
  obtain ⟨hdisk, hcache⟩ := Prod.mk.inj hresult
  rw [← hdisk, ← hcache, hwritten.1]
  exact ⟨rfl, (hwritten.2.brelse src).brelse dst, h1.length_lt hnodup hlog hdst1⟩

theorem installTurn_spec (hlog : logstart + tail + 1 ∉ pins)
    (hpins : ∀ b, b ∈ pins' ↔ b ∈ pins ∧ b ≠ home)
    (hturn : installTurn disk c t tail home = some (disk', c')) :
    disk' = update disk home (disk (logstart + tail + 1)) ∧
      Cached c' disk' pins' target := by
  obtain ⟨⟨lbuf, c1⟩, hfirst, hturn⟩ := Option.bind_eq_some_iff.mp hturn
  obtain ⟨⟨dbuf, c2⟩, hsecond, hresult⟩ := Option.map_eq_some_iff.mp hturn
  obtain ⟨_, _, h2, hlbuf, hdbuf⟩ := bread_twice h hfirst hsecond
  have hdata := h2.clean hlbuf (h2.not_dirty hlog hlbuf)
  have hwritten := h2.written (disk (logstart + tail + 1)) hdbuf hpins
  simp only [hdata] at hresult
  obtain ⟨hdisk, hcache⟩ := Prod.mk.inj hresult
  rw [← hdisk, ← hcache, hwritten.1]
  exact ⟨rfl, (hwritten.2.brelse lbuf).brelse dbuf⟩

theorem writeHead_spec (hstart : logstart ∉ pins)
    (hhead : writeHead disk c t lh = some (disk', c')) :
    (∃ old, disk' = update disk logstart (putHead old lh)) ∧
      Cached c' disk' pins target := by
  obtain ⟨⟨i, c1⟩, hread, hresult⟩ := Option.map_eq_some_iff.mp hhead
  obtain ⟨h1, hi⟩ := h.bread hread
  have hpins : ∀ b, b ∈ pins ↔ b ∈ pins ∧ b ≠ logstart := by
    intro b
    refine ⟨fun hb => ⟨hb, ?_⟩, And.left⟩
    rintro rfl
    exact hstart hb
  have hwritten := h1.written (putHead (c1.buf i).data lh) hi hpins
  simp only at hresult
  obtain ⟨hdisk, hcache⟩ := Prod.mk.inj hresult
  rw [← hdisk, ← hcache, hwritten.1]
  exact ⟨⟨_, rfl⟩, hwritten.2.brelse i⟩

theorem readHead_spec (hstart : logstart ∉ pins)
    (hhead : readHead disk c t = some (lh, c')) :
    lh = headOf (disk logstart) ∧ Cached c' disk pins target := by
  obtain ⟨⟨i, c1⟩, hread, hresult⟩ := Option.map_eq_some_iff.mp hhead
  obtain ⟨h1, hi⟩ := h.bread hread
  have hdata := h1.clean hi (h1.not_dirty hstart hi)
  obtain ⟨hlh, hcache⟩ := Prod.mk.inj hresult
  rw [← hlh, ← hcache, hdata]
  exact ⟨rfl, h1.brelse i⟩

end

end

variable {entry : Tid × Nat}

section

variable {s : State} {b : Nat}

theorem writes_append (left right : List (List Write)) :
    writes (left ++ right) = writes left ++ writes right := by
  simp [writes]

theorem writes_nil : writes ([[]] : List (List Write)) = [] := rfl

theorem Running.rest (h : Running s) (hb : b ∉ s.lh) : s.current b = s.stable b := by
  rw [State.current, State.stable, h.heads, List.take_length, writes_append, replay_append]
  refine replay_of_not_mem ?_
  intro w hw
  simp only [writes, List.flatten_cons, List.flatten_nil, List.append_nil, List.mem_map] at hw
  obtain ⟨w', hw', rfl⟩ := hw
  rintro rfl
  exact hb (h.logged w' hw')

theorem Recoverable.of_empty {disk target : Disk} (hhead : headOf (disk logstart) = [])
    (hrest : ∀ b, Home b → disk b = target b) : Recoverable disk target where
  home := by simp [hhead]
  room := by simp [hhead]
  rest := fun b hb _ => hrest b hb
  logged := by simp [hhead]

theorem not_home_log {j : Nat} (hj : j + 1 < nlog) : ¬ Home (logstart + j + 1) := by
  unfold Home
  omega

theorem home_ne_logstart (hb : Home b) : b ≠ logstart := by
  have hsize : 0 < nlog := by decide
  unfold Home at hb
  omega

theorem headOf_putHead {block : Block} {entries : List Nat} (hlen : entries.length < nlog)
    (hent : ∀ b ∈ entries, Home b) : headOf (putHead block entries) = entries := by
  have hsize : nlog < 128 := by decide
  have hcount : ((putHead block entries) 0).toNat = entries.length := by
    simp only [putHead, if_true, UInt32.toNat_ofNat']
    exact Nat.mod_eq_of_lt (by omega)
  unfold headOf
  rw [hcount, if_pos (by omega)]
  refine List.ext_getElem (by simp) fun i hi _ => ?_
  have hlt : i < entries.length := by simpa using hi
  have hword : Fin.ofNat 128 (i + 1) ≠ 0 := by
    rw [Ne, Fin.ext_iff, Fin.val_ofNat, Nat.mod_eq_of_lt (by omega)]
    simp
  have hbound := (hent _ (List.getElem_mem hlt)).2
  simp only [List.getElem_map, List.getElem_range, putHead, if_neg hword]
  rw [Fin.val_ofNat, Nat.mod_eq_of_lt (by omega), Nat.add_sub_cancel,
    List.getElem?_eq_getElem hlt]
  simp only [Option.elim_some, UInt32.toNat_ofNat']
  exact Nat.mod_eq_of_lt hbound

theorem Cached.retarget {c : Bcache} {disk target target' : Disk} {pins : List Nat}
    (h : Cached c disk pins target) (htarget : ∀ b ∈ pins, target' b = target b) :
    Cached c disk pins target' where
  toCoherent := h.toCoherent
  pinned := by
    intro b hb
    rw [htarget b hb]
    exact h.pinned b hb
  dirty := h.dirty

theorem Phase.quiet (h : Phase s) (hpc : s.pc ≠ .running) : s.quiet := by
  unfold Phase at h
  split at h
  · rename_i hrunning
    exact absurd hrunning hpc
  · exact h.2.quiet
  · exact h.2.2.2.2.quiet
  · exact h.2.1
  · exact h.1
  · exact h.2.2.quiet

theorem op_some {t : Tid} (h : s.op t = some entry) :
    entry ∈ s.ops ∧ entry.1 = t :=
  ⟨List.mem_of_find?_eq_some h, by simpa using List.find?_some h⟩

theorem Phase.of_running (h : Phase s) (hpc : s.pc = .running) : Running s := by
  simpa only [Phase, hpc] using h

theorem Phase.of_op {t : Tid} (h : Phase s) (hop : (s.op t).isSome = true) :
    s.pc = .running ∧ Running s := by
  have hpc : s.pc = .running := by
    by_contra hpc
    simp [State.op, (h.quiet hpc).ops] at hop
  exact ⟨hpc, h.of_running hpc⟩

end

section Calls

variable {s s' : State} {t : Tid}

section

variable (h : Inv s) (hbooted : s.booted)
include h hbooted

theorem Inv.withCache {c : Bcache}
    (hcached : ∀ {pins target}, Cached s.bcache s.disk pins target → Cached c s.disk pins target)
    (hcalls : ∀ t i data, s.calls t = some (i, data) → (s.bcache.buf i).busy = some t →
      c.buf i = s.bcache.buf i) : Inv { s with bcache := c } := by
  refine ⟨h.recoverable, h.heads_le, h.ordered, ?_⟩
  have hphase := h.phase
  cases hpc : s.pc with
  | running =>
    simp only [Phase, hpc] at hphase ⊢
    refine { hphase with cached := hcached hphase.cached, calls := ?_ }
    intro t i data hcall
    obtain ⟨hbusy, hblock, hop⟩ := hphase.calls t i data hcall
    rw [hcalls t i data hcall hbusy]
    exact ⟨hbusy, hblock, hop⟩
  | writeLog t tail =>
    simp only [Phase, hpc] at hphase ⊢
    exact ⟨hphase.1, { hphase.2 with cached := hcached hphase.2.cached }⟩
  | installTrans t tail =>
    simp only [Phase, hpc] at hphase ⊢
    obtain ⟨hcommitting, hheads, hpending, hnodup, hinstalling⟩ := hphase
    exact ⟨hcommitting, hheads, hpending, hnodup,
      { hinstalling with cached := hcached hinstalling.cached }⟩
  | finish =>
    simp only [Phase, hpc] at hphase ⊢
    obtain ⟨hcommitting, hquiet, hhead, hheads, hpending, hlh, hc⟩ := hphase
    exact ⟨hcommitting, hquiet, hhead, hheads, hpending, hlh, hcached hc⟩
  | readHead | recoverTrans tail => simp [State.booted, hpc] at hbooted

theorem inv_bread {b : Nat} {c : Bcache}
    (hread : bread s.disk s.bcache t b = some (i, c)) : Inv { s with bcache := c } := by
  obtain ⟨_, hfree, hothers⟩ := bread_busy hread
  refine h.withCache hbooted (fun hcached => (hcached.bread hread).1) ?_
  intro t' j data _ hbusy
  refine hothers j ?_
  rintro rfl
  rw [hfree] at hbusy
  cases hbusy

theorem inv_brelse (hbusy : (s.bcache.buf i).busy = some t) (hcall : s.calls t = none) :
    Inv { s with bcache := brelse s.bcache i } := by
  refine h.withCache hbooted (fun hcached => hcached.brelse i) ?_
  intro t' j data hcall' hbusy'
  have hji : j ≠ i := by
    rintro rfl
    rw [hbusy] at hbusy'
    cases hbusy'
    rw [hcall] at hcall'
    cases hcall'
  simp [brelse, Bcache.setBuf, hji]

theorem inv_beginOp (hcall : beginOp s t = some s') :
    Inv s' := by
  unfold beginOp at hcall
  split at hcall
  · cases hcall
  · rename_i hcommitting
    split at hcall
    · cases hcall
    · cases hcall
      have hpc : s.pc = .running := by
        have hphase := h.phase
        cases hpc : s.pc <;> simp_all [Phase, State.booted]
      have hrunning := h.phase.of_running hpc
      refine ⟨h.recoverable, h.heads_le, ⟨h.ordered.groups, ?_, ?_, ?_⟩, ?_⟩
      · intro entry hentry g hg w hw
        rcases List.mem_cons.mp hentry with rfl | hold
        · exact h.ordered.old g (List.mem_append_left _ hg) w hw
        · exact h.ordered.running entry hold g hg w hw
      · intro g hg w hw
        exact Nat.lt_succ_of_lt (h.ordered.old g hg w hw)
      · intro entry hentry
        rcases List.mem_cons.mp hentry with rfl | hold
        · exact Nat.lt_succ_self _
        · exact Nat.lt_succ_of_lt (h.ordered.fresh entry hold)
      · simp only [Phase, hpc]
        refine { hrunning with outstanding := ?_, calls := ?_ }
        · simp [hrunning.outstanding]
        · intro t' i data hcall'
          obtain ⟨hbusy, hblock, op, hop⟩ := hrunning.calls t' i data hcall'
          exact ⟨hbusy, hblock, op, List.mem_cons_of_mem _ hop⟩

end

theorem inv_logWrite {data : Block} (h : Inv s) (hop : (s.op t).isSome = true)
    (hbusy : (s.bcache.buf i).busy = some t) (hhome : ∃ b ∈ (s.bcache.buf i).blockno, Home b)
    (hcall : logWrite s t i data = some s') : Inv s' := by
  obtain ⟨hpc, hrunning⟩ := h.phase.of_op hop
  unfold logWrite at hcall
  split at hcall
  · cases hcall
  · split at hcall
    · cases hcall
    · cases hcall
      refine ⟨h.recoverable, h.heads_le, h.ordered, ?_⟩
      simp only [Phase, hpc]
      refine { hrunning with calls := ?_ }
      intro t' i' data' hcall'
      by_cases htt : t' = t
      · subst htt
        simp only [update_self] at hcall'
        cases hcall'
        obtain ⟨b, hb, hhome⟩ := hhome
        obtain ⟨⟨_, op⟩, hentry⟩ := Option.isSome_iff_exists.mp hop
        obtain ⟨hmem, hfst⟩ := op_some hentry
        cases hfst
        exact ⟨hbusy, ⟨b, hb, hhome⟩, op, hmem⟩
      · simp only [update_of_ne htt] at hcall'
        exact hrunning.calls t' i' data' hcall'

theorem current_append (s : State) (t : Tid) (op : Nat) (i : BufId) (b : Nat) (data : Block) :
    (append s t op i b data).current = update s.current b data := by
  have hwrites : writes (s.commits ++ [s.pending ++ [⟨op, b, data⟩]]) =
      writes (s.commits ++ [s.pending]) ++ [(b, data)] := by
    simp [writes]
  unfold State.current append
  simp only [hwrites, replay_concat]

theorem inv_append {b : Nat} {data : Block} (h : Inv s)
    (hop : s.op t = some entry) (hcall : s.calls t = some (i, data))
    (hb : (s.bcache.buf i).blockno = some b) : Inv (append s t entry.2 i b data) := by
  obtain ⟨hpc, hrunning⟩ := h.phase.of_op (t := t) (by rw [hop]; rfl)
  obtain ⟨hmem, _⟩ := op_some hop
  obtain ⟨hbusy, ⟨b', hb', hhome⟩, _⟩ := hrunning.calls t i data hcall
  have hbb : b' = b := Option.some.inj (hb'.symm.trans hb)
  subst hbb
  have hlh : ∀ b, b ∈ (append s t entry.2 i b' data).lh ↔ b ∈ s.lh ∨ b = b' := by
    intro b
    simp only [append]
    split
    · rename_i hold
      refine ⟨Or.inl, ?_⟩
      rintro (hb | rfl)
      · exact hb
      · exact hold
    · simp
  refine ⟨h.recoverable, h.heads_le, ⟨?_, h.ordered.running, ?_, h.ordered.fresh⟩, ?_⟩
  · have hgroups := h.ordered.groups
    rw [List.pairwise_append] at hgroups
    refine List.pairwise_append.mpr ⟨hgroups.1, List.pairwise_singleton _ _, ?_⟩
    intro g hg p hp w hw w' hw'
    rw [List.mem_singleton.mp hp] at hw'
    rcases List.mem_append.mp hw' with hold | hnew
    · exact hgroups.2.2 g hg s.pending (List.mem_singleton_self _) w hw w' hold
    · rw [List.mem_singleton.mp hnew]
      exact h.ordered.running entry hmem g hg w hw
  · intro g hg w hw
    rcases List.mem_append.mp hg with hold | hnew
    · exact h.ordered.old g (List.mem_append_left _ hold) w hw
    · rw [List.mem_singleton.mp hnew] at hw
      rcases List.mem_append.mp hw with hw | hw
      · exact h.ordered.old s.pending (List.mem_append_right _ (List.mem_singleton_self _)) w hw
      · rw [List.mem_singleton.mp hw]
        exact h.ordered.fresh entry hmem
  · have hphase : (append s t entry.2 i b' data).pc = .running := hpc
    simp only [Phase, hphase]
    refine ⟨hrunning.head, hrunning.heads, ?_, ?_, ?_, ?_, hrunning.outstanding,
      hrunning.committing, ?_⟩
    · simp only [append]
      split
      · exact hrunning.nodup
      · rename_i hnew
        exact List.concat_eq_append ▸ hrunning.nodup.concat hnew
    · intro b hb
      rcases (hlh b).mp hb with hold | rfl
      · exact hrunning.home b hold
      · exact hhome
    · rw [current_append]
      exact hrunning.cached.marked hb hlh
    · intro w hw
      rcases List.mem_append.mp hw with hold | hnew
      · exact (hlh _).mpr (Or.inl (hrunning.logged w hold))
      · rw [List.mem_singleton.mp hnew]
        exact (hlh _).mpr (Or.inr rfl)
    · intro t' i' data' hcall'
      have htt : t' ≠ t := by
        rintro rfl
        simp [append] at hcall'
      simp only [append, update_of_ne htt] at hcall'
      obtain ⟨hbusy', hblock', hop'⟩ := hrunning.calls t' i' data' hcall'
      have hii : i' ≠ i := by
        rintro rfl
        rw [hbusy] at hbusy'
        exact htt (Option.some.inj hbusy').symm
      simp only [append, setBuf_of_ne _ _ hii]
      exact ⟨hbusy', hblock', hop'⟩

theorem current_of_started (commits : List (List Write)) (pending : List Write) :
    writes (commits ++ [pending] ++ [[]]) = writes (commits ++ [pending]) := by
  rw [writes_append, writes_nil, List.append_nil]

theorem inv_endOp (h : Inv s) (hop : s.op t = some entry)
    (hcall : s.calls t = none) (hend : endOp s t entry = some s') : Inv s' := by
  obtain ⟨hpc, hrunning⟩ := h.phase.of_op (t := t) (by rw [hop]; rfl)
  obtain ⟨hmem, hfst⟩ := op_some hop
  have hlength : s.outstanding - 1 = (s.ops.erase entry).length := by
    rw [hrunning.outstanding, List.length_erase_of_mem hmem]
  have hsub : ∀ e ∈ s.ops.erase entry, e ∈ s.ops := fun e he => List.mem_of_mem_erase he
  have hcalls : ∀ t' i data, s.calls t' = some (i, data) →
      ∃ op, (t', op) ∈ s.ops.erase entry := by
    intro t' i data hcall'
    obtain ⟨_, _, op, hop'⟩ := hrunning.calls t' i data hcall'
    refine ⟨op, (List.mem_erase_of_ne ?_).mpr hop'⟩
    rintro rfl
    cases hfst
    rw [hcall] at hcall'
    cases hcall'
  unfold endOp at hend
  simp only [hrunning.committing] at hend
  split at hend
  · rename_i hfalse
    cases hfalse
  · split at hend
    · rename_i hzero
      have hnone : s.ops.erase entry = [] := List.length_eq_zero_iff.mp (hlength.symm.trans hzero)
      have hquiet : Quiet (s.ops.erase entry) (s.outstanding - 1) s.calls := by
        refine ⟨hnone, hzero, fun t' => ?_⟩
        cases hcall' : s.calls t' with
        | none => rfl
        | some call =>
          obtain ⟨op, hop'⟩ := hcalls t' call.1 call.2 hcall'
          rw [hnone] at hop'
          cases hop'
      split at hend
      · rename_i hlh
        cases hend
        have hpending : s.pending = [] := by
          refine List.eq_nil_iff_forall_not_mem.mpr fun w hw => ?_
          have hw' := hrunning.logged w hw
          rw [hlh] at hw'
          cases hw'
        refine ⟨h.recoverable, h.heads_le, ⟨h.ordered.groups, ?_, h.ordered.old, ?_⟩, ?_⟩
        · exact fun e he => h.ordered.running e (hsub e he)
        · exact fun e he => h.ordered.fresh e (hsub e he)
        · refine ⟨rfl, hquiet, hrunning.head, hrunning.heads, hpending, hlh, ?_⟩
          have hcached := hrunning.cached
          rw [hlh] at hcached
          exact hcached.retarget (by simp)
      · rename_i hlh
        cases hend
        have htake : (s.commits ++ [s.pending]).take s.heads = s.commits.take s.heads := by
          rw [List.take_append_of_le_length (by rw [hrunning.heads])]
        have hstable : replay (writes ((s.commits ++ [s.pending]).take s.heads)) s.base =
            s.stable := by
          rw [htake]
          rfl
        have hcurrent : replay (writes (s.commits ++ [s.pending] ++ [[]])) s.base = s.current := by
          rw [current_of_started]
          rfl
        refine ⟨?_, ?_, ⟨?_, ?_, ?_, ?_⟩, ?_⟩
        · simp only [State.stable, hstable]
          exact h.recoverable
        · simp [hrunning.heads]
        · refine List.pairwise_append.mpr ⟨h.ordered.groups, List.pairwise_singleton _ _, ?_⟩
          intro g _ p hp w _ w' hw'
          rw [List.mem_singleton.mp hp] at hw'
          cases hw'
        · intro e he
          rw [hnone] at he
          cases he
        · intro g hg w hw
          rcases List.mem_append.mp hg with hold | hnew
          · exact h.ordered.old g hold w hw
          · rw [List.mem_singleton.mp hnew] at hw
            cases hw
        · exact fun e he => h.ordered.fresh e (hsub e he)
        · refine ⟨rfl, hquiet, hrunning.head, ?_, rfl, hlh, hrunning.nodup, hrunning.home, ?_, ?_,
            ?_, ?_, Nat.zero_le _⟩
          · simp [hrunning.heads]
          · simp only [State.current, hcurrent]
            exact hrunning.cached
          · intro b hb
            simp only [State.current, State.stable, hcurrent, hstable]
            exact hrunning.rest hb
          · exact fun j b hj => absurd hj (Nat.not_lt_zero j)
          · exact fun hpos => absurd hpos (Nat.lt_irrefl 0)
    · cases hend
      refine ⟨h.recoverable, h.heads_le, ⟨h.ordered.groups, ?_, h.ordered.old, ?_⟩, ?_⟩
      · exact fun e he => h.ordered.running e (hsub e he)
      · exact fun e he => h.ordered.fresh e (hsub e he)
      · simp only [Phase, hpc]
        refine { hrunning with outstanding := hlength, committing := rfl, calls := ?_ }
        intro t' i data hcall'
        obtain ⟨hbusy, hblock, _⟩ := hrunning.calls t' i data hcall'
        exact ⟨hbusy, hblock, hcalls t' i data hcall'⟩

end Calls

end Xv6.Log
