import Xv6.File.Books

/-! Runs of the threads that share descriptors. `sys_open` stores its descriptor
before `end_op` and gives the file its type after it; `exit` closes a file before
it clears the slot, and `fork` does not clear the slots of the entry it takes.
Where no other thread sees these places, the counts are exact and no file is used
without a type. -/
namespace Xv6.Files
open Function Transition Tally

variable {s s' : State} {t u : Thread} {T T' : Tables} {p q child : Proc} {fd : Fd} {f g : FileId}
  {pc : Pc} {c : Call}

attribute [local simp] exitDone

/-- The file is in the hands of a `sys_open` that has still to store its type. -/
def Opening (pc : Thread → Pc) (f : FileId) : Prop :=
  ∃ u fd omode ip, pc u = .opened fd f omode ip

/-- What a position owes to the counts: in `exit` a closed file is still in its slot. -/
def Pc.due (T : Tables) (p : Proc) : Pc → FileId → Int
  | .closing _ _ (.exit fd _) => fun f => if T.ofile (p, fd) = some f then 1 else 0
  | _ => fun _ => 0

theorem Pc.due_cases (T : Tables) (p : Proc) (pc : Pc) :
    (pc.due T p = fun _ => 0) ∨ ∃ ip stage fd rest, pc = .closing ip stage (.exit fd rest) :=
  match pc with
  | .closing ip stage (.exit fd rest) => .inr ⟨ip, stage, fd, rest, rfl⟩
  | .closing _ _ (.files _) | .closing _ _ (.openFailed _) => .inl rfl
  | .user | .open _ | .opened _ _ _ _ | .openFailed _ | .endOp | .piperead _ _ | .pipewrite _ _
  | .fileread _ | .filewrite _ | .exitCwd _ => .inl rfl

def State.alone (s : State) (t : Thread) : Prop :=
  ∀ u, s.live u = true → u.1 = t.1 → u = t

instance (s : State) (t : Thread) : Decidable (s.alone t) :=
  inferInstanceAs (Decidable (∀ _, _))

def Holds (s : State) (t : Thread) : Pc → Prop
  | .user => True
  | .opened fd f _ _ =>
    s.live t = true ∧ s.tables.ofile (t.1, fd) = some f ∧ (s.tables.file f).ref = 1 ∧
      (s.current = some t ∨ s.alone t)
  | .closing _ _ (.files rest) => s.live t = true ∧ rest = []
  | .closing _ _ (.openFailed _) => False
  | .closing _ _ (.exit fd _) =>
    s.live t = true ∧ s.current = some t ∧
      ∃ f, s.tables.ofile (t.1, fd) = some f ∧ (s.tables.file f).ref = 0
  | _ => s.live t = true

structure Inv (s : State) : Prop where
  panic : ∀ p, s.panic = some p → p = .initExiting
  alive : ∀ t, s.live t = true → s.state t.1 = .runnable
  holds : ∀ t, Holds s t (s.pc t)
  sound : Sound s.tables (Opening s.pc)
  idle : s.current = none → Books s.tables fun _ => 0
  busy : ∀ t, s.current = some t → s.pc t ≠ .user ∧ Books s.tables ((s.pc t).due s.tables t.1)

theorem inv_boot : Inv boot where
  panic := fun p hp => by cases hp
  alive := fun t ht => by
    have heq : t = (initproc, thread0) := of_decide_eq_true ht
    simp [heq, boot]
  holds := fun _ => trivial
  sound := ⟨fun _ _ => rfl, fun _ href => absurd rfl href⟩
  idle := fun _ f => by
    have hnone : slots boot.tables f = 0 := tally_eq_zero fun _ => rfl
    rw [hnone]
    rfl
  busy := fun t ht => by cases ht

theorem State.mayRun.current (h : s.mayRun t) (hu : s.current = some u) : u = t := by
  rcases h.2 with hnone | hsome
  · rw [hnone] at hu
    cases hu
  · exact Option.some.inj (hu.symm.trans hsome)

section

variable (h : Inv s) (hrun : s.mayRun t)
include h hrun

theorem Inv.count (href : (s.tables.file f).ref ≠ 0) :
    (s.tables.file f).ref = slots s.tables f := by
  rcases hrun.2 with hnone | hsome
  · have hf := h.idle hnone f
    simp only [Int.add_zero] at hf
    omega
  · have hf := (h.busy t hsome).2 f
    have hdue : (s.pc t).due s.tables t.1 f = 0 := by
      rcases (s.pc t).due_cases s.tables t.1 with hdue | ⟨ip, stage, fd, rest, hpc⟩
      · rw [hdue]
      · have hholds := h.holds t
        rw [hpc] at hholds ⊢
        obtain ⟨_, _, g, hslot, hzero⟩ := hholds
        apply if_neg
        intro heq
        exact href (Option.some.inj (hslot.symm.trans heq) ▸ hzero)
    omega

theorem Inv.books (hdue : (s.pc t).due s.tables t.1 = fun _ => 0) : Books s.tables fun _ => 0 := by
  rcases hrun.2 with hnone | hsome
  · exact h.idle hnone
  · rw [← hdue]
    exact (h.busy t hsome).2

theorem Inv.apart (hu : u ≠ t) {omode ip : Nat}
    (hpc : s.pc u = .opened fd f omode ip) :
    s.alone u ∧ t.1 ≠ u.1 ∧ ∀ fd', s.tables.ofile (t.1, fd') ≠ some f := by
  have hholds := h.holds u
  rw [hpc] at hholds
  obtain ⟨_, hslot, href, hsee⟩ := hholds
  have halone : s.alone u := hsee.resolve_left fun hcurrent => hu (hrun.current hcurrent)
  have hne : t.1 ≠ u.1 := fun heq => hu (halone t hrun.1 heq).symm
  refine ⟨halone, hne, fun fd' hslot' => hne ?_⟩
  have hone : slots s.tables f = 1 := (h.count hrun (by omega)).symm.trans href
  have hsame : ((t.1, fd') : Slot) = (u.1, fd) := slot_unique hone hslot' hslot
  exact (Prod.mk.inj hsame).1

theorem Inv.typed (hpc : ∀ fd f omode ip, s.pc t ≠ .opened fd f omode ip)
    (href : (s.tables.file f).ref ≠ 0) (hslot : s.tables.ofile (t.1, fd) = some f) :
    (s.tables.file f).type ≠ .none := by
  intro htype
  obtain ⟨u, fd', omode, ip, hu⟩ := h.sound.typed f href htype
  have hne : u ≠ t := fun heq => hpc fd' f omode ip (heq ▸ hu)
  exact (h.apart hrun hne hu).2.2 fd hslot

theorem Inv.holds_other (hu : u ≠ t)
    (hframe : Frame t.1 s.tables T') : Holds (s.enter t T' pc) u (s.pc u) := by
  have hold := h.holds u
  match hpc : s.pc u with
  | .user => trivial
  | .opened fd f omode ip =>
    rw [hpc] at hold
    obtain ⟨hlive, hslot, href, _⟩ := hold
    obtain ⟨halone, hne, hnot⟩ := h.apart hrun hu hpc
    exact ⟨hlive, hframe.slot u.1 fd f hne.symm hslot,
      (hframe.ref f (by omega) hnot).trans href, .inr halone⟩
  | .closing _ _ (.files _) =>
    rw [hpc] at hold
    exact hold
  | .closing _ _ (.openFailed _) =>
    rw [hpc] at hold
    exact hold
  | .closing _ _ (.exit _ _) =>
    rw [hpc] at hold
    exact absurd (hrun.current hold.2.1) hu
  | .open _ | .openFailed _ | .endOp | .piperead _ _ | .pipewrite _ _ | .fileread _ | .filewrite _
  | .exitCwd _ =>
    rw [hpc] at hold
    exact hold

theorem Inv.enter (hframe : Frame t.1 s.tables T')
    (hsound : Sound T' (Opening (update s.pc t pc)))
    (hholds : Holds (s.enter t T' pc) t pc) (hbooks : Books T' (pc.due T' t.1)) :
    Inv (s.enter t T' pc) where
  panic := h.panic
  alive := h.alive
  holds := fun u => by
    by_cases hu : u = t
    · subst hu
      simpa [State.enter] using hholds
    · have hother : Holds (s.enter t T' pc) u (s.pc u) := h.holds_other hrun hu hframe
      simpa [State.enter, hu] using hother
  sound := hsound
  idle := fun hcurrent => by
    have hpc : pc = .user := by
      by_contra hne
      simp [State.enter, hne] at hcurrent
    subst hpc
    exact hbooks
  busy := fun u hcurrent => by
    have hpc : pc ≠ .user := by
      intro hpc
      simp [State.enter, hpc] at hcurrent
    have hu : t = u := by simpa [State.enter, hpc] using hcurrent
    subst hu
    exact ⟨by simpa [State.enter] using hpc, by simpa [State.enter] using hbooks⟩

end

/-- The position is neither in the window of `exit` nor in that of `sys_open`. -/
structure Pc.Plain (pc : Pc) : Prop where
  due : ∀ T p, pc.due T p = fun _ => 0
  opened : ∀ fd f omode ip, pc ≠ .opened fd f omode ip

theorem opening_update (hopened : ∀ fd f omode ip, s.pc t ≠ .opened fd f omode ip)
    (hf : Opening s.pc f) : Opening (update s.pc t pc) f := by
  obtain ⟨u, fd, omode, ip, hu⟩ := hf
  have hne : u ≠ t := fun heq => hopened fd f omode ip (heq ▸ hu)
  exact ⟨u, fd, omode, ip, by simpa [hne] using hu⟩

theorem Inv.plain (h : Inv s) (hrun : s.mayRun t) (hplain : (s.pc t).Plain)
    (hkept : Kept t.1 (Opening s.pc) s.tables T') (hholds : Holds (s.enter t T' pc) t pc)
    (hdue : pc.due T' t.1 = fun _ => 0) : Inv (s.enter t T' pc) := by
  apply h.enter hrun hkept.frame (hkept.sound.mono fun _ => opening_update hplain.opened) hholds
  rw [hdue]
  exact hkept.books

theorem Inv.kept (h : Inv s) (hrun : s.mayRun t) (hplain : (s.pc t).Plain) :
    Kept t.1 (Opening s.pc) s.tables s.tables :=
  ⟨Frame.of_eq rfl fun _ => rfl, h.sound, h.books hrun (hplain.due _ _)⟩

theorem plain_user : Pc.user.Plain := ⟨fun _ _ => rfl, by simp⟩

theorem argfd_some {n : Int} (h : argfd T p n = some (fd, f)) : T.ofile (p, fd) = some f := by
  simp only [argfd] at h
  split at h
  · obtain ⟨g, hslot, heq⟩ := Option.map_eq_some_iff.mp h
    cases heq
    exact hslot
  · cases h

section

variable (h : Inv s) (hrun : s.mayRun t) (hpc : s.pc t = .user)
  (hslot : s.tables.ofile (t.1, fd) = some f)
include h hrun hpc hslot

theorem inv_close : Inv (s.proceed t (closeFiles [f] (s.tables.setSlot (t.1, fd) none))) := by
  have hplain : (s.pc t).Plain := hpc ▸ plain_user
  obtain ⟨T', pc, hclose, hkept, hpc'⟩ :=
    kept_close (h.books hrun (hplain.due _ _)) h.sound hslot
  rw [hclose]
  rcases hpc' with rfl | ⟨ip, rfl⟩
  · exact h.plain hrun hplain hkept trivial rfl
  · exact h.plain hrun hplain hkept ⟨hrun.1, rfl⟩ rfl

theorem inv_dup : Inv (dup s t f) := by
  have hplain : (s.pc t).Plain := hpc ▸ plain_user
  unfold dup
  cases hfd : fdalloc s.tables t.1 f with
  | none => exact h
  | some result =>
    obtain ⟨T', fd'⟩ := result
    obtain ⟨T'', hdup, hkept⟩ := kept_dup (h.books hrun (hplain.due _ _)) h.sound hslot hfd
    simp only [hdup]
    exact h.plain hrun hplain hkept trivial rfl

theorem inv_fileread : Inv (fileread s t f) := by
  have hplain : (s.pc t).Plain := hpc ▸ plain_user
  have hkept := h.kept hrun hplain
  have htyped := h.typed hrun hplain.opened (Nat.ne_of_gt (hkept.books.ref_pos hslot)) hslot
  simp only [fileread]
  split
  · exact h
  · split
    · exact h.plain hrun hplain hkept hrun.1 rfl
    · exact h.plain hrun hplain hkept hrun.1 rfl
    · rename_i htype
      exact absurd htype htyped

theorem inv_filewrite : Inv (filewrite s t f) := by
  have hplain : (s.pc t).Plain := hpc ▸ plain_user
  have hkept := h.kept hrun hplain
  have htyped := h.typed hrun hplain.opened (Nat.ne_of_gt (hkept.books.ref_pos hslot)) hslot
  simp only [filewrite]
  split
  · exact h
  · split
    · exact h.plain hrun hplain hkept hrun.1 rfl
    · exact h.plain hrun hplain hkept hrun.1 rfl
    · rename_i htype
      exact absurd htype htyped

end

section

variable (h : Inv s) (hrun : s.mayRun t)
include h hrun

theorem inv_exitLoop (rest : List Fd)
    (hframe : Frame t.1 s.tables T') (hsound : Sound T' (Opening s.pc))
    (hbooks : Books T' fun _ => 0) (hopened : ∀ fd f omode ip, s.pc t ≠ .opened fd f omode ip) :
    Inv (s.proceed t (exitLoop t.1 rest T')) := by
  obtain ⟨T'', pc, hloop, hframe', hsound', hpc⟩ := kept_exitLoop rest hbooks hsound
  have hnew : Sound T'' (Opening (update s.pc t pc)) :=
    hsound'.mono fun _ => opening_update hopened
  rw [hloop]
  rcases hpc with ⟨rfl, hbooks'⟩ | ⟨ip, fd, rest', g, rfl, hslot, hzero, hbooks'⟩
  · exact h.enter hrun (hframe.trans hframe') hnew hrun.1 hbooks'
  · apply h.enter hrun (hframe.trans hframe') hnew
    · exact ⟨hrun.1, by simp [State.enter], g, hslot, hzero⟩
    · refine hbooks'.congr fun f => ?_
      simp only [Pc.due, hslot, Option.some.injEq, single, eq_comm]

theorem inv_open {omode : Nat} (hpc : s.pc t = .open omode)
    (found : Option Nat) (isDir : Bool) : Inv (lookup s t omode found isDir) := by
  have hplain : (s.pc t).Plain := by
    rw [hpc]
    exact ⟨fun _ _ => rfl, by simp⟩
  have hkept := h.kept hrun hplain
  cases found with
  | none => exact h.plain hrun hplain hkept hrun.1 rfl
  | some ip =>
    have hframe : Frame t.1 s.tables (s.tables.addRef ip 1) := Frame.of_eq rfl fun _ => rfl
    have hsound : Sound (s.tables.addRef ip 1) (Opening s.pc) := h.sound.congr rfl
    have hbooks : Books (s.tables.addRef ip 1) fun _ => 0 := hkept.books
    simp only [lookup]
    split
    · exact h.plain hrun hplain ⟨hframe, hsound, hbooks⟩ hrun.1 rfl
    · obtain ⟨T', pc, hopen, hcases⟩ := kept_openFile (p := t.1) omode ip hbooks hsound
      rw [hopen]
      rcases hcases with ⟨rfl, hkept'⟩ | ⟨fd, f, rfl, hkept', hslot, href⟩
      · exact h.plain hrun hplain ⟨hframe.trans hkept'.frame, hkept'.sound, hkept'.books⟩ hrun.1 rfl
      · apply h.enter hrun (hframe.trans hkept'.frame)
        · refine hkept'.sound.mono fun g hg => ?_
          rcases hg with hg | rfl
          · exact opening_update hplain.opened hg
          · exact ⟨t, fd, omode, ip, by simp⟩
        · exact ⟨hrun.1, hslot, href, .inl (by simp [State.enter])⟩
        · exact hkept'.books

theorem inv_openDone {omode ip : Nat}
    (hpc : s.pc t = .opened fd f omode ip) :
    Inv (s.enter t (openDone s.tables f omode ip) .user) := by
  have hholds := h.holds t
  rw [hpc] at hholds
  obtain ⟨_, hslot, href, _⟩ := hholds
  have hsame : ∀ g, ((openDone s.tables f omode ip).file g).ref = (s.tables.file g).ref := by
    intro g
    by_cases hg : g = f <;> simp [openDone, Tables.setFile, hg]
  have hbooks : Books s.tables fun _ => 0 := h.books hrun (by rw [hpc]; rfl)
  have hframe : Frame t.1 s.tables (openDone s.tables f omode ip) := Frame.of_eq rfl hsame
  apply h.enter hrun hframe
  · constructor
    · intro g hfree
      by_cases hg : g = f
      · rw [hsame, hg, href] at hfree
        cases hfree
      · rw [hsame] at hfree
        simpa [openDone, Tables.setFile, hg] using h.sound.free g hfree
    · intro g hused htype
      by_cases hg : g = f
      · simp [openDone, Tables.setFile, hg] at htype
      · rw [hsame] at hused
        simp only [openDone, Tables.setFile, update_of_ne hg] at htype
        obtain ⟨u, fd', omode', ip', hu⟩ := h.sound.typed g hused htype
        have hne : u ≠ t := by
          intro heq
          rw [heq, hpc] at hu
          cases hu
          exact hg rfl
        exact ⟨u, fd', omode', ip', by simpa [hne] using hu⟩
  · trivial
  · intro g
    rw [hsame]
    exact hbooks g

theorem inv_exitStage {ip : Nat} {stage stage' : Stage} {next : Next}
    (hpc : s.pc t = .closing ip stage next) (hfile : T'.file = s.tables.file)
    (hofile : T'.ofile = s.tables.ofile) : Inv (s.enter t T' (.closing ip stage' next)) := by
  have hholds := h.holds t
  rw [hpc] at hholds
  have hframe : Frame t.1 s.tables T' := Frame.of_eq hofile fun f => by rw [hfile]
  have hopened : ∀ fd f omode ip, s.pc t ≠ .opened fd f omode ip := by simp [hpc]
  have hsound : Sound T' (Opening (update s.pc t (.closing ip stage' next))) :=
    (h.sound.congr hfile).mono fun _ => opening_update hopened
  match next with
  | .files rest =>
    have hbooks : Books s.tables fun _ => 0 := h.books hrun (by rw [hpc]; rfl)
    refine h.enter hrun hframe hsound hholds fun f => ?_
    have hf := hbooks f
    simp only [slots, hfile, hofile] at hf ⊢
    exact hf
  | .openFailed _ => exact hholds.elim
  | .exit fd rest =>
    obtain ⟨hlive, hcurrent, g, hslot, hzero⟩ := hholds
    apply h.enter hrun hframe hsound
    · exact ⟨hlive, by simp [State.enter], g, hofile ▸ hslot, by rw [← hzero, ← hfile]; rfl⟩
    · intro f
      have hf := (h.busy t hcurrent).2 f
      rw [hpc] at hf
      simp only [Pc.due, slots, hfile, hofile] at hf ⊢
      exact hf

theorem inv_resume {ip : Nat} {stage : Stage} {next : Next}
    (hpc : s.pc t = .closing ip stage next) : Inv (s.proceed t (resume s.tables t.1 next)) := by
  have hholds := h.holds t
  rw [hpc] at hholds
  match next with
  | .files rest =>
    obtain ⟨_, rfl⟩ := hholds
    have hplain : (s.pc t).Plain := by
      rw [hpc]
      exact ⟨fun _ _ => rfl, by simp⟩
    exact h.plain hrun hplain (h.kept hrun hplain) trivial rfl
  | .openFailed _ => exact hholds.elim
  | .exit fd rest =>
    obtain ⟨_, hcurrent, g, hslot, _⟩ := hholds
    have hbooks := (h.busy t hcurrent).2
    rw [hpc] at hbooks
    have hcleared : Books (s.tables.setSlot (t.1, fd) none) fun _ => 0 := by
      refine (hbooks.clear hslot).congr fun f => ?_
      simp only [Pc.due, hslot, Option.some.injEq, single, eq_comm, sub_self]
    have hframe : Frame t.1 s.tables (s.tables.setSlot (t.1, fd) none) := by
      refine Frame.of_own ?_ (fun fd' g' hslot' => ⟨fd', setSlot_none_some hslot'⟩) hslot
        fun _ _ => rfl
      intro q fd' g' hq hslot'
      rw [setSlot_other (by simp [hq]), hslot']
    exact inv_exitLoop h hrun rest hframe (h.sound.congr rfl) hcleared (by simp [hpc])

end

theorem Holds.live (h : Holds s u pc) (hpc : pc ≠ .user) : s.live u = true := by
  match pc with
  | .user => exact absurd rfl hpc
  | .opened _ _ _ _ | .closing _ _ (.files _) | .closing _ _ (.exit _ _) => exact h.1
  | .closing _ _ (.openFailed _) => exact h.elim
  | .open _ | .openFailed _ | .endOp | .piperead _ _ | .pipewrite _ _ | .fileread _ | .filewrite _
  | .exitCwd _ => exact h

theorem Holds.settle (h : Holds s u pc) (hnone : s.current = none) (htables : s'.tables = s.tables)
    (hlive : s.live u = true → s'.live u = true)
    (halone : s.live u = true → s.alone u → s'.alone u) : Holds s' u pc := by
  match pc with
  | .user => trivial
  | .opened fd f omode ip =>
    obtain ⟨hl, hslot, href, hsee⟩ := h
    have hold : s.alone u := hsee.resolve_left (by simp [hnone])
    exact ⟨hlive hl, by rw [htables, hslot], by rw [htables, href], .inr (halone hl hold)⟩
  | .closing _ _ (.files _) => exact ⟨hlive h.1, h.2⟩
  | .closing _ _ (.openFailed _) => exact h
  | .closing _ _ (.exit _ _) =>
    have hcurrent := h.2.1
    rw [hnone] at hcurrent
    cases hcurrent
  | .open _ | .openFailed _ | .endOp | .piperead _ _ | .pipewrite _ _ | .fileread _ | .filewrite _
  | .exitCwd _ => exact hlive h

theorem Inv.settle (h : Inv s) (hnone : s.current = none) (hnone' : s'.current = none)
    (hpanic : s'.panic = s.panic) (htables : s'.tables = s.tables)
    (halive : ∀ u, s'.live u = true → s'.state u.1 = .runnable)
    (hopening : ∀ f, Opening s.pc f → Opening s'.pc f)
    (hpc : ∀ u, s'.pc u = .user ∨ s'.pc u = s.pc u ∧ (s.live u = true → s'.live u = true) ∧
      (s.live u = true → s.alone u → s'.alone u)) : Inv s' where
  panic := hpanic ▸ h.panic
  alive := halive
  holds := fun u => by
    rcases hpc u with huser | ⟨hsame, hlive, halone⟩
    · rw [huser]
      trivial
    · rw [hsame]
      exact (h.holds u).settle hnone htables hlive halone
  sound := htables ▸ h.sound.mono hopening
  idle := fun _ => htables ▸ h.idle hnone
  busy := fun u hu => by
    rw [hnone'] at hu
    cases hu

section

variable (h : Inv s) (hrun : s.mayRun t) (hpc : s.pc t = .user)
include h hrun hpc

theorem Inv.current_none : s.current = none :=
  hrun.2.resolve_right fun hsome => (h.busy t hsome).1 hpc

theorem inv_fork (hunused : s.state child = .unused)
    (hclear : ∀ fd, s.tables.ofile (t.1, fd) ≠ none → s.tables.ofile (child, fd) = none) :
    Inv (fork s t child) := by
  have hplain : (s.pc t).Plain := hpc ▸ plain_user
  have hchild : ∀ u, s.live u = true → u.1 ≠ child := by
    intro u hlive heq
    have hstate := h.alive u hlive
    rw [heq, hunused] at hstate
    cases hstate
  obtain ⟨T', hloop, hkept⟩ := kept_forkLoop (List.finRange nofile) (List.nodup_finRange nofile)
    (hchild t hrun.1).symm (fun fd _ => hclear fd) (h.books hrun (hplain.due _ _)) h.sound
  have hdone : Inv (s.enter t T' .user) := h.plain hrun hplain hkept trivial rfl
  have hsame : (s.enter t T' .user).pc = s.pc := by
    rw [State.enter, ← hpc, update_eq_self]
  have hgone : ∀ u, s.pc u ≠ .user → u ≠ (child, thread0) := by
    intro u hu heq
    exact hchild u ((h.holds u).live hu) (by rw [heq])
  simp only [fork, hloop]
  apply hdone.settle
  · rfl
  · exact h.current_none hrun hpc
  · rfl
  · rfl
  · intro u hlive
    by_cases hu : u = (child, thread0)
    · simp [hu]
    · have hl : s.live u = true := by simpa [hu] using hlive
      simpa [hchild u hl] using h.alive u hl
  · intro f hf
    rw [hsame] at hf
    obtain ⟨u, fd, omode, ip, hu⟩ := hf
    exact ⟨u, fd, omode, ip, by simpa [hgone u (by simp [hu])] using hu⟩
  · intro u
    by_cases hu : u = (child, thread0)
    · exact .inl (by simp [hu])
    · refine .inr ⟨by simp [hu, hsame], fun hl => ?_, fun hl halone v hv heq => ?_⟩
      · simpa [hu, State.enter] using hl
      · by_cases hv' : v = (child, thread0)
        · rw [hv'] at heq
          exact absurd heq.symm (hchild u hl)
        · exact halone v (by simpa [hv', State.enter] using hv) heq

theorem inv_kthreadCreate {i : Fin nthread}
    (hdead : s.live (t.1, i) = false) :
    Inv { s with
      live := update s.live (t.1, i) true
      pc := update s.pc (t.1, i) .user } := by
  have hnone := h.current_none hrun hpc
  have hgone : ∀ u, s.pc u ≠ .user → u ≠ (t.1, i) := by
    intro u hu heq
    have hlive := (h.holds u).live hu
    rw [heq, hdead] at hlive
    cases hlive
  apply h.settle hnone
  · exact hnone
  · rfl
  · rfl
  · intro u hlive
    by_cases hu : u = (t.1, i)
    · rw [hu]
      exact h.alive t hrun.1
    · exact h.alive u (by simpa [hu] using hlive)
  · intro f hf
    obtain ⟨u, fd, omode, ip, hu⟩ := hf
    exact ⟨u, fd, omode, ip, by simpa [hgone u (by simp [hu])] using hu⟩
  · intro u
    by_cases hu : u = (t.1, i)
    · exact .inl (by simp [hu])
    by_cases huser : s.pc u = .user
    · exact .inl (by simp [hu, huser])
    refine .inr ⟨by simp [hu], fun hl => by simpa [hu] using hl, fun hl halone v hv heq => ?_⟩
    by_cases hv' : v = (t.1, i)
    · -- the creator is another thread of the same process
      rw [hv'] at heq
      have htu := halone t hrun.1 heq
      exact absurd (htu ▸ hpc) huser
    · exact halone v (by simpa [hv'] using hv) heq

end

theorem inv_exitDone (h : Inv s) (hrun : s.mayRun t) (hpc : s.pc t = .exitCwd .endOp) :
    Inv (exitDone s t.1) := by
  have hplain : (s.pc t).Plain := by
    rw [hpc]
    exact ⟨fun _ _ => rfl, by simp⟩
  have hdone : Inv (s.enter t s.tables .user) :=
    h.plain hrun hplain (h.kept hrun hplain) trivial rfl
  apply hdone.settle
  · rfl
  · rfl
  · rfl
  · rfl
  · intro u hlive
    by_cases hu : u.1 = t.1
    · simp [hu] at hlive
    · have hl : s.live u = true := by simpa [hu] using hlive
      simpa [hu] using h.alive u hl
  · intro f hf
    obtain ⟨u, fd, omode, ip, hu⟩ := hf
    have hne : u ≠ t := by
      intro heq
      simp [heq, State.enter] at hu
    have hu' : s.pc u = .opened fd f omode ip := by simpa [State.enter, hne] using hu
    refine ⟨u, fd, omode, ip, ?_⟩
    simp [(h.apart hrun hne hu').2.1.symm, hu']
  · intro u
    by_cases hu : u.1 = t.1
    · exact .inl (by simp [hu])
    · have hne : u ≠ t := fun heq => hu (by rw [heq])
      refine .inr ⟨by simp [State.enter, hu, hne], fun hl => ?_, fun hl halone v hv => ?_⟩
      · simpa [State.enter, hu] using hl
      · apply halone v
        by_cases hv' : v.1 = t.1
        · simp [hv'] at hv
        · simpa [State.enter, hv'] using hv

/-- Where a thread of the process must not sleep or take a used entry: `sys_open`
with its descriptor stored and other threads there, `exit` in the middle of a
`fileclose`, and `fork` over a descriptor that is not clear. -/
def unseen (s : State) : Act → Prop
  | .sleep t =>
    match s.pc t with
    | .opened _ _ _ _ => s.alone t
    | .closing _ _ (.exit _ _) => False
    | _ => True
  | .call t (.fork child) =>
    ∀ fd, s.tables.ofile (t.1, fd) ≠ none → s.tables.ofile (child, fd) = none
  | _ => True

instance (s : State) : (a : Act) → Decidable (unseen s a)
  | .sleep t =>
    match h : s.pc t with
    | .opened _ _ _ _ => decidable_of_iff (s.alone t) (by simp only [unseen, h])
    | .closing _ _ (.exit _ _) => isFalse (by simp only [unseen, h, not_false_iff])
    | .closing _ _ (.files _) | .closing _ _ (.openFailed _) => isTrue (by simp only [unseen, h])
    | .user | .open _ | .openFailed _ | .endOp | .piperead _ _ | .pipewrite _ _ | .fileread _
    | .filewrite _ | .exitCwd _ => isTrue (by simp only [unseen, h])
  | .call t (.fork child) =>
    inferInstanceAs (Decidable
      (∀ fd, s.tables.ofile (t.1, fd) ≠ none → s.tables.ofile (child, fd) = none))
  | .call _ (.open _) | .call _ (.close _) | .call _ (.dup _) | .call _ (.pipe _)
  | .call _ (.read _ _) | .call _ (.write _ _) | .call _ .exit | .call _ (.kthreadCreate _) =>
    isTrue trivial
  | .lookup _ _ _ | .go _ | .wait _ => isTrue trivial

theorem inv_sleep (h : Inv s) (hcurrent : s.current = some t) (hunseen : unseen s (.sleep t)) :
    Inv { s with current := none } where
  panic := h.panic
  alive := h.alive
  holds := fun u => by
    have hold := h.holds u
    match hpc : s.pc u with
    | .user => trivial
    | .opened fd f omode ip =>
      rw [hpc] at hold
      refine ⟨hold.1, hold.2.1, hold.2.2.1, .inr ?_⟩
      rcases hold.2.2.2 with hu | halone
      · cases hcurrent.symm.trans hu
        have halone : s.alone t := by simpa only [unseen, hpc] using hunseen
        exact halone
      · exact halone
    | .closing _ _ (.files _) =>
      rw [hpc] at hold
      exact hold
    | .closing _ _ (.openFailed _) =>
      rw [hpc] at hold
      exact hold
    | .closing _ _ (.exit _ _) =>
      rw [hpc] at hold
      cases hcurrent.symm.trans hold.2.1
      simp only [unseen, hpc] at hunseen
    | .open _ | .openFailed _ | .endOp | .piperead _ _ | .pipewrite _ _ | .fileread _
    | .filewrite _ | .exitCwd _ =>
      rw [hpc] at hold
      exact hold
  sound := h.sound
  idle := fun _ => by
    rcases (s.pc t).due_cases s.tables t.1 with hdue | ⟨ip, stage, fd, rest, hpc⟩
    · rw [← hdue]
      exact (h.busy t hcurrent).2
    · simp only [unseen, hpc] at hunseen
  busy := fun _ hu => by cases hu

theorem inv_call (h : Inv s) (hrun : s.mayRun t) (hpc : s.pc t = .user)
    (hunseen : unseen s (.call t c)) (hcall : call s t c = some s') : Inv s' := by
  have hplain : (s.pc t).Plain := hpc ▸ plain_user
  have hkept := h.kept hrun hplain
  cases c with
  | «open» omode =>
    cases hcall
    exact h.plain hrun hplain hkept hrun.1 rfl
  | close n =>
    simp only [call] at hcall
    split at hcall
    · cases hcall
      exact h
    · rename_i hfd
      cases hcall
      exact inv_close h hrun hpc (argfd_some hfd)
  | dup n =>
    simp only [call] at hcall
    split at hcall
    · cases hcall
      exact h
    · rename_i hfd
      cases hcall
      exact inv_dup h hrun hpc (argfd_some hfd)
  | pipe page =>
    obtain ⟨_, rfl⟩ := taken hcall
    obtain ⟨T', hpipe, hkept'⟩ := kept_pipe (p := t.1) page hkept.books h.sound
    rw [hpipe]
    exact h.plain hrun hplain hkept' trivial rfl
  | read n ok =>
    simp only [call] at hcall
    split at hcall
    · cases hcall
      exact h
    · rename_i hfd
      split at hcall <;> cases hcall
      · exact inv_fileread h hrun hpc (argfd_some hfd)
      · exact h
  | write n ok =>
    simp only [call] at hcall
    split at hcall
    · cases hcall
      exact h
    · rename_i hfd
      split at hcall <;> cases hcall
      · exact inv_filewrite h hrun hpc (argfd_some hfd)
      · exact h
  | fork child =>
    obtain ⟨hunused, rfl⟩ := taken hcall
    exact inv_fork h hrun hpc hunused hunseen
  | exit =>
    simp only [call] at hcall
    split at hcall <;> cases hcall
    · exact ⟨fun p hp => (Option.some.inj hp).symm, h.alive, h.holds, h.sound, h.idle, h.busy⟩
    · exact inv_exitLoop h hrun _ hkept.frame h.sound hkept.books (by simp [hpc])
  | kthreadCreate i =>
    obtain ⟨hdead, hcall⟩ := Option.ite_none_left_eq_some.mp hcall
    cases hcall
    exact inv_kthreadCreate h hrun hpc (by simpa using hdead)

theorem Inv.walk (h : Inv s) (hrun : s.mayRun t) (hplain : (s.pc t).Plain)
    (hfile : T'.file = s.tables.file) (hofile : T'.ofile = s.tables.ofile)
    (hholds : Holds (s.enter t T' pc) t pc) (hdue : pc.due T' t.1 = fun _ => 0) :
    Inv (s.enter t T' pc) := by
  have hkept := h.kept hrun hplain
  refine h.plain hrun hplain ⟨?_, h.sound.congr hfile, fun f => ?_⟩ hholds hdue
  · exact Frame.of_eq hofile fun f => by rw [hfile]
  · have hf := hkept.books f
    simp only [slots, hfile, hofile] at hf ⊢
    exact hf

theorem inv_go (h : Inv s) (hrun : s.mayRun t) (hgo : go s t (s.pc t) = some s') : Inv s' := by
  have hlive := hrun.1
  match hpc : s.pc t with
  | .user | .open _ => simp [go, hpc] at hgo
  | .opened fd f omode ip =>
    rw [hpc] at hgo
    cases hgo
    exact inv_openDone h hrun hpc
  | .closing ip .beginOp next =>
    rw [hpc] at hgo
    cases hgo
    exact inv_exitStage h hrun hpc rfl rfl
  | .closing ip .iput next =>
    rw [hpc] at hgo
    cases hgo
    exact inv_exitStage h hrun hpc rfl rfl
  | .closing ip .endOp next =>
    rw [hpc] at hgo
    cases hgo
    exact inv_resume h hrun hpc
  | .exitCwd .endOp =>
    rw [hpc] at hgo
    cases hgo
    exact inv_exitDone h hrun hpc
  | .openFailed _ | .endOp | .piperead _ _ | .pipewrite _ _ | .fileread _ | .filewrite _
  | .exitCwd .beginOp | .exitCwd .iput =>
    rw [hpc] at hgo
    cases hgo
    refine h.walk hrun ?_ rfl rfl ?_ rfl
    · rw [hpc]
      exact ⟨fun _ _ => rfl, by simp⟩
    · trivial

theorem inv_step {a : Act} (h : Inv s) (hunseen : unseen s a) (hstep : step s a = some s') :
    Inv s' := by
  obtain ⟨_, hact⟩ := Option.ite_none_right_eq_some.mp hstep
  cases a with
  | call t c =>
    obtain ⟨⟨hrun, hpc⟩, hcall⟩ := Option.ite_none_right_eq_some.mp hact
    exact inv_call h hrun hpc hunseen hcall
  | lookup t found isDir =>
    obtain ⟨hrun, hact⟩ := Option.ite_none_right_eq_some.mp hact
    split at hact
    · rename_i omode hpc
      cases hact
      exact inv_open h hrun hpc found isDir
    · cases hact
  | go t =>
    obtain ⟨hrun, hgo⟩ := Option.ite_none_right_eq_some.mp hact
    exact inv_go h hrun hgo
  | sleep t =>
    obtain ⟨hcurrent, rfl⟩ := taken hact
    exact inv_sleep h hcurrent hunseen
  | wait p =>
    obtain ⟨⟨hnone, hzombie⟩, rfl⟩ := taken hact
    refine h.settle hnone hnone rfl rfl ?_ (fun _ hf => hf) fun u =>
      .inr ⟨rfl, fun hl => hl, fun _ halone => halone⟩
    intro u hl
    have hstate := h.alive u hl
    have hu : u.1 ≠ p := by
      intro heq
      rw [heq, hzombie] at hstate
      cases hstate
    simpa [hu] using hstate

/-- The references that a call in progress holds beside those of slots. -/
def Pc.held : Pc → List FileId
  | .closing _ _ (.files rest) => rest
  | _ => []

structure Consistent (s : State) : Prop where
  refs : ∀ f, (s.tables.file f).ref = slots s.tables f
  held : ∀ t, (s.pc t).held = []
  /-- A thread other than the one that is opening it sees no file without a type. -/
  typed : ∀ t fd f, s.live t = true → s.tables.ofile (t.1, fd) = some f →
    (∀ omode ip, s.pc t ≠ .opened fd f omode ip) → (s.tables.file f).type ≠ .none

theorem Inv.consistent (h : Inv s) (hnone : s.current = none) : Consistent s where
  refs := fun f => by
    have hf := h.idle hnone f
    simp only [Int.add_zero] at hf
    omega
  held := fun t => by
    have hholds := h.holds t
    unfold Pc.held
    split
    · rename_i hpc
      rw [hpc] at hholds
      exact hholds.2
    · rfl
  typed := fun t fd f hlive hslot hpc htype => by
    have hrun : s.mayRun t := ⟨hlive, .inl hnone⟩
    have href := Nat.ne_of_gt ((h.idle hnone).ref_pos hslot)
    obtain ⟨u, fd', omode, ip, hu⟩ := h.sound.typed f href htype
    by_cases hne : u = t
    · subst hne
      have hholds := h.holds u
      rw [hu] at hholds
      obtain ⟨_, hslot', hone, _⟩ := hholds
      have hslots : slots s.tables f = 1 := (h.count hrun href).symm.trans hone
      have hsame : ((u.1, fd') : Slot) = (u.1, fd) := slot_unique hslots hslot' hslot
      exact hpc omode ip ((Prod.mk.inj hsame).2 ▸ hu)
    · exact (h.apart hrun hne hu).2.2 fd hslot

/-- Whenever all threads sleep or are in user space the counts are those of the
slots and every descriptor that another thread sees has a type; no panic of
file.c is reached. -/
theorem file_table_consistent (labels : List Act) (final : State)
    (hrun : run step boot labels = some final) (hmeets : Meets step unseen boot labels) :
    (final.current = none → Consistent final) ∧
      ∀ p, final.panic = some p → p = .initExiting := by
  have hinv : Inv final :=
    run_invariant (fun _ _ _ => inv_step) inv_boot hmeets hrun
  exact ⟨hinv.consistent, hinv.panic⟩

def file2 : FileId := ⟨2, Nat.succ_lt_succ (Nat.succ_lt_succ (Nat.succ_pos 97))⟩

/-- Two threads of `init` share descriptors; a child opens a file and exits. -/
def shared : List Act :=
  [.call init0 (.open 0), .lookup init0 (some 7) false, .sleep init0, .go init0,
    .call init0 (.kthreadCreate thread1), .call init1 (.dup 0),
    .call init0 (.read 0 true), .sleep init0, .call init1 (.close 0), .go init0,
    .call init0 (.pipe (some 3)), .call init0 (.fork proc1),
    .call child0 (.open 1), .lookup child0 (some 8) false, .sleep child0,
    .call init1 (.write 2 true), .sleep init1, .go child0,
    .call child0 .exit, .go child0, .go child0, .go child0, .sleep child0,
    .go child0, .go child0, .go child0, .wait proc1]

theorem file_table_consistent_shared :
    ∃ final, run step boot shared = some final ∧ Meets step unseen boot shared ∧
      final.pc init1 = .pipewrite file2 3 ∧ Consistent final ∧ final.panic = none := by
  have hmeets : Meets step unseen boot shared := by decide +kernel
  obtain ⟨final, hrun, hpc, hcurrent, hpanic⟩ : ∃ final, run step boot shared = some final ∧
      final.pc init1 = .pipewrite file2 3 ∧ final.current = none ∧ final.panic = none := by
    decide +kernel
  exact ⟨final, hrun, hmeets, hpc, (file_table_consistent shared final hrun hmeets).1 hcurrent,
    hpanic⟩

/-- A child with two threads has the last reference to a file; one of them sleeps
in the `fileclose` of its `exit`. -/
def exiting : List Act :=
  [.call init0 (.fork proc1), .call child0 (.kthreadCreate thread1),
    .call child0 (.open 0), .lookup child0 (some 7) false, .go child0,
    .call child0 .exit, .sleep child0]

/-- The other thread finds the closed file in its slot. -/
theorem shared_descriptor_panics :
    (run step boot (exiting ++ [.call child1 .exit])).map (fun s => s.panic) =
        some (some .fileclose) ∧
      (run step boot (exiting ++ [.call child1 (.read 0 true)])).map (fun s => s.panic) =
        some (some .fileread) ∧
      (run step boot (exiting ++ [.call child1 (.fork proc2)])).map (fun s => s.panic) =
        some (some .filedup) := by
  decide +kernel

end Xv6.Files
