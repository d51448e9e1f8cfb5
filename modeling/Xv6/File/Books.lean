import Xv6.File.Table

/-! The reference counts of the file table against the descriptor slots, for the
functions of file.c and for the parts of the calls between two sleep points. -/
namespace Xv6.Files
open Function Transition Tally

variable {T T' T'' : Tables} {p q child : Proc} {fd fd' : Fd} {f g f0 f1 : FileId} {r : Option Nat}
  {due due' : FileId → Int} {new new' : FileId → Prop}

def slots (T : Tables) (f : FileId) : Nat :=
  tally (fun held => held == some f) T.ofile

def single (f : FileId) : FileId → Int := fun g => if g = f then 1 else 0

@[simp] theorem single_self : single f f = 1 := if_pos rfl

theorem single_ne (h : g ≠ f) : single f g = 0 := if_neg h

variable {slot : Slot}

theorem slots_clear (h : T.ofile slot = some f) (g : FileId) :
    (slots (T.setSlot slot none) g : Int) = slots T g - single f g := by
  by_cases hg : g = f
  · subst hg
    have hleave : slots (T.setSlot slot none) g + 1 = slots T g :=
      tally_leave (by simp [h]) (by simp)
    simp only [single_self]
    omega
  · have hkeep : slots (T.setSlot slot none) g = slots T g :=
      tally_keep (by simp [h, Ne.symm hg])
    simp only [single_ne hg, hkeep, sub_zero]

theorem slots_store (h : T.ofile slot = none) (g : FileId) :
    (slots (T.setSlot slot (some f)) g : Int) = slots T g + single f g := by
  by_cases hg : g = f
  · subst hg
    have hjoin : slots (T.setSlot slot (some g)) g = slots T g + 1 :=
      tally_join (by simp [h]) (by simp)
    simp only [single_self]
    omega
  · have hkeep : slots (T.setSlot slot (some f)) g = slots T g :=
      tally_keep (by simp [h, Ne.symm hg])
    simp only [single_ne hg, hkeep, add_zero]

theorem slots_pos (h : T.ofile slot = some f) : 0 < slots T f := by
  have hclear := slots_clear h f
  simp only [single_self] at hclear
  omega

theorem slot_unique {slot' : Slot} (hone : slots T f = 1) (h : T.ofile slot = some f)
    (h' : T.ofile slot' = some f) : slot = slot' :=
  eq_of_tally_le_one (Nat.le_of_eq hone) (by simp [h]) (by simp [h'])

/-- Each reference is that of a slot, up to `due`. -/
def Books (T : Tables) (due : FileId → Int) : Prop :=
  ∀ f, ((T.file f).ref : Int) + due f = slots T f

theorem Books.congr (h : Books T due) (hdue : ∀ f, due' f = due f) : Books T due' :=
  fun f => by rw [hdue, h f]

theorem Books.clear (h : Books T due) (hslot : T.ofile slot = some f) :
    Books (T.setSlot slot none) (fun g => due g - single f g) := by
  intro g
  have hg := h g
  rw [slots_clear hslot]
  simp only [Tables.setSlot]
  omega

theorem Books.store (h : Books T due) (hslot : T.ofile slot = none) :
    Books (T.setSlot slot (some f)) (fun g => due g + single f g) := by
  intro g
  have hg := h g
  rw [slots_store hslot]
  simp only [Tables.setSlot]
  omega

theorem Books.count (h : Books T due) (hofile : T'.ofile = T.ofile)
    (hother : ∀ g, g ≠ f → (T'.file g).ref = (T.file g).ref) {n : Int}
    (hcount : ((T'.file f).ref : Int) = (T.file f).ref + n) :
    Books T' (fun g => due g - n * single f g) := by
  intro g
  have hg := h g
  simp only [slots, hofile] at hg ⊢
  by_cases hgf : g = f
  · subst hgf
    simp only [single_self]
    omega
  · simp only [single_ne hgf, hother g hgf]
    omega

theorem Books.ref_pos (h : Books T fun _ => 0) (hslot : T.ofile slot = some f) :
    0 < (T.file f).ref := by
  have hf := h f
  have hpos := slots_pos hslot
  simp only [Int.add_zero] at hf
  omega

/-- Free files have no type; those in use without one are being opened. -/
structure Sound (T : Tables) (new : FileId → Prop) : Prop where
  free : ∀ f, (T.file f).ref = 0 → (T.file f).type = .none
  typed : ∀ f, (T.file f).ref ≠ 0 → (T.file f).type = .none → new f

theorem Sound.mono (h : Sound T new) (hnew : ∀ f, new f → new' f) : Sound T new' where
  free := h.free
  typed := fun f href htype => hnew f (h.typed f href htype)

theorem Sound.congr (h : Sound T new) (hfile : T'.file = T.file) : Sound T' new where
  free := fun f => by rw [hfile]; exact h.free f
  typed := fun f => by rw [hfile]; exact h.typed f

/-- A call of `p` leaves alone what only other processes hold. -/
structure Frame (p : Proc) (T T' : Tables) : Prop where
  slot : ∀ q fd f, q ≠ p → T.ofile (q, fd) = some f → T'.ofile (q, fd) = some f
  ref : ∀ f, (T.file f).ref ≠ 0 → (∀ fd, T.ofile (p, fd) ≠ some f) →
    (T'.file f).ref = (T.file f).ref
  own : ∀ fd f, T'.ofile (p, fd) = some f →
    (∃ fd', T.ofile (p, fd') = some f) ∨ (T.file f).ref = 0

theorem Frame.of_eq (hofile : T'.ofile = T.ofile) (href : ∀ f, (T'.file f).ref = (T.file f).ref) :
    Frame p T T' where
  slot := fun q fd f _ hslot => by rw [hofile, hslot]
  ref := fun f _ _ => href f
  own := fun fd f hslot => .inl ⟨fd, by rw [← hofile, hslot]⟩

theorem Frame.trans (h : Frame p T T') (h' : Frame p T' T'') : Frame p T T'' where
  slot := fun q fd f hq hslot => h'.slot q fd f hq (h.slot q fd f hq hslot)
  ref := fun f href hown => by
    have hsame := h.ref f href hown
    rw [← hsame]
    apply h'.ref f (by rw [hsame]; exact href)
    intro fd hslot
    rcases h.own fd f hslot with ⟨fd', hslot'⟩ | hfree
    · exact hown fd' hslot'
    · exact href hfree
  own := fun fd f hslot => by
    by_cases hown : ∃ fd', T.ofile (p, fd') = some f
    · exact .inl hown
    · right
      simp only [not_exists] at hown
      by_contra href
      rcases h'.own fd f hslot with ⟨fd', hslot'⟩ | hfree
      · rcases h.own fd' f hslot' with ⟨fd'', hslot''⟩ | hfree
        · exact hown fd'' hslot''
        · exact href hfree
      · exact href ((h.ref f href hown).symm.trans hfree)

theorem Frame.of_own (hslots : ∀ q fd g, q ≠ p → T.ofile (q, fd) = some g →
      T'.ofile (q, fd) = some g)
    (hown : ∀ fd g, T'.ofile (p, fd) = some g → ∃ fd', T.ofile (p, fd') = some g)
    (hslot : T.ofile (p, fd) = some f)
    (hother : ∀ g, g ≠ f → (T'.file g).ref = (T.file g).ref) : Frame p T T' where
  slot := hslots
  ref := fun g _ hnot => hother g fun hg => hnot fd (hg ▸ hslot)
  own := fun fd' g hslot' => .inl (hown fd' g hslot')

theorem Frame.of_free (hslots : ∀ slot g, T.ofile slot = some g → T'.ofile slot = some g)
    (hown : ∀ fd g, T'.ofile (p, fd) = some g →
      T.ofile (p, fd) = some g ∨ (T.file g).ref = 0)
    (href : ∀ g, (T.file g).ref ≠ 0 → (T'.file g).ref = (T.file g).ref) : Frame p T T' where
  slot := fun q fd g _ hslot => hslots (q, fd) g hslot
  ref := fun g hused _ => href g hused
  own := fun fd g hslot => (hown fd g hslot).imp (fun h => ⟨fd, h⟩) id

theorem setSlot_none_some {slot' : Slot}
    (h : (T.setSlot slot none).ofile slot' = some f) : T.ofile slot' = some f := by
  by_cases hslot : slot' = slot
  · simp [Tables.setSlot, hslot] at h
  · simpa [Tables.setSlot, hslot] using h

theorem setSlot_other {slot' : Slot} {held : Option FileId} (h : slot' ≠ slot) :
    (T.setSlot slot held).ofile slot' = T.ofile slot' := by
  simp [Tables.setSlot, h]

/-! ### What the functions of file.c do -/

structure Closed (T : Tables) (f : FileId) (T' : Tables) (r : Option Nat) : Prop where
  ofile : T'.ofile = T.ofile
  other : ∀ g, g ≠ f → T'.file g = T.file g
  ref : (T.file f).ref = (T'.file f).ref + 1
  type : (T'.file f).ref ≠ 0 → (T'.file f).type = (T.file f).type
  none : (T'.file f).ref = 0 → (T'.file f).type = .none
  sleeps : r ≠ .none → (T'.file f).ref = 0 ∧ (T.file f).type = .inode

theorem closed_of_fileclose (h : fileclose T f = some (T', r)) : Closed T f T' r := by
  simp only [fileclose] at h
  split at h
  · cases h
  · rename_i hpos
    split at h
    · rename_i hmany
      cases h
      refine ⟨rfl, fun g hg => ?_, ?_, ?_, ?_, ?_⟩
      · simp [Tables.setFile, hg]
      all_goals simp only [Tables.setFile, update_self]
      · omega
      · simp
      · omega
      · simp
    · rename_i hone
      split at h <;> rename_i htype <;> cases h
      all_goals
        refine ⟨rfl, fun g hg => ?_, ?_, ?_, ?_, ?_⟩
        · simp [Tables.setFile, pipeclose, hg]
        all_goals simp only [Tables.setFile, pipeclose, update_self]
        · omega
        all_goals simp [htype]

theorem exists_fileclose (h : 0 < (T.file f).ref) : ∃ T' r, fileclose T f = some (T', r) := by
  simp only [fileclose]
  rw [if_neg (by omega)]
  split
  · exact ⟨_, _, rfl⟩
  · split <;> exact ⟨_, _, rfl⟩

theorem Closed.books (h : Closed T f T' r) (hbooks : Books T due) :
    Books T' (fun g => due g + single f g) := by
  have href := h.ref
  refine (hbooks.count (n := -1) h.ofile (fun g hg => by rw [h.other g hg]) ?_).congr
    fun g => by omega
  omega

theorem Closed.sound (h : Closed T f T' r) (hsound : Sound T new) : Sound T' new where
  free := fun g href => by
    by_cases hg : g = f
    · subst hg
      exact h.none href
    · rw [h.other g hg] at href ⊢
      exact hsound.free g href
  typed := fun g href htype => by
    have hpre := h.ref
    by_cases hg : g = f
    · subst hg
      rw [h.type href] at htype
      exact hsound.typed g (by omega) htype
    · rw [h.other g hg] at href htype
      exact hsound.typed g href htype

theorem filealloc_some (h : filealloc T = some (T', f)) :
    (T.file f).ref = 0 ∧ T' = T.setFile f { T.file f with ref := 1 } := by
  obtain ⟨g, hfind, heq⟩ := Option.map_eq_some_iff.mp h
  cases heq
  have hfound := List.find?_some hfind
  exact ⟨by simpa using hfound, rfl⟩

theorem fdalloc_some (h : fdalloc T p f = some (T', fd)) :
    T.ofile (p, fd) = none ∧ T' = T.setSlot (p, fd) (some f) := by
  obtain ⟨fd', hfind, heq⟩ := Option.map_eq_some_iff.mp h
  cases heq
  have hfound := List.find?_some hfind
  exact ⟨by simpa using hfound, rfl⟩

theorem Books.dup (h : Books T due) :
    Books (T.setFile f { T.file f with ref := (T.file f).ref + 1 })
      (fun g => due g - single f g) := by
  have hcount : Books (T.setFile f { T.file f with ref := (T.file f).ref + 1 })
      (fun g => due g - 1 * single f g) := by
    apply h.count
    · rfl
    · intro g hg
      simp [Tables.setFile, hg]
    · simp [Tables.setFile]
  exact hcount.congr fun g => by omega

theorem Books.alloc (h : Books T due) (hfree : (T.file f).ref = 0) :
    Books (T.setFile f { T.file f with ref := 1 }) (fun g => due g - single f g) := by
  have hcount : Books (T.setFile f { T.file f with ref := 1 })
      (fun g => due g - 1 * single f g) := by
    apply h.count
    · rfl
    · intro g hg
      simp [Tables.setFile, hg]
    · simp [Tables.setFile, hfree]
  exact hcount.congr fun g => by omega

theorem Sound.setFile (h : Sound T new) {file : File}
    (hfree : file.ref = 0 → file.type = .none)
    (htyped : file.ref ≠ 0 → file.type = .none → new f) : Sound (T.setFile f file) new where
  free := fun g href => by
    by_cases hg : g = f
    · subst hg
      simp only [Tables.setFile, update_self] at href ⊢
      exact hfree href
    · simp only [Tables.setFile, update_of_ne hg] at href ⊢
      exact h.free g href
  typed := fun g href htype => by
    by_cases hg : g = f
    · subst hg
      simp only [Tables.setFile, update_self] at href htype
      exact htyped href htype
    · simp only [Tables.setFile, update_of_ne hg] at href htype
      exact h.typed g href htype

theorem Sound.drop (h : Sound T new) (hnew : ∀ f, new f → (T.file f).ref = 0 ∨ new' f) :
    Sound T new' where
  free := h.free
  typed := fun f href htype => (hnew f (h.typed f href htype)).resolve_left href

/-! ### What a call does to the tables -/

/-- The tables after a call of `p`. -/
structure Kept (p : Proc) (new : FileId → Prop) (T T' : Tables) : Prop where
  frame : Frame p T T'
  sound : Sound T' new
  books : Books T' fun _ => 0

theorem kept_close (hbooks : Books T fun _ => 0) (hsound : Sound T new)
    (hslot : T.ofile (p, fd) = some f) :
    ∃ T' pc, closeFiles [f] (T.setSlot (p, fd) none) = some (T', pc) ∧ Kept p new T T' ∧
      (pc = .user ∨ ∃ ip, pc = .closing ip .beginOp (.files [])) := by
  have hpos : 0 < ((T.setSlot (p, fd) none).file f).ref := hbooks.ref_pos hslot
  obtain ⟨T', r, hclose⟩ := exists_fileclose hpos
  have hclosed := closed_of_fileclose hclose
  have hkept : Kept p new T T' := by
    refine ⟨Frame.of_own ?_ ?_ hslot fun g hg => by rw [hclosed.other g hg]; rfl,
      hclosed.sound (hsound.congr rfl), ?_⟩
    · intro q fd' g hq hslot'
      rw [hclosed.ofile, setSlot_other (by simp [hq]), hslot']
    · intro fd' g hslot'
      rw [hclosed.ofile] at hslot'
      exact ⟨fd', setSlot_none_some hslot'⟩
    · exact (hclosed.books (hbooks.clear hslot)).congr fun g => by omega
  cases r with
  | none => exact ⟨T', _, by simp [closeFiles, hclose], hkept, .inl rfl⟩
  | some ip => exact ⟨T', _, by simp [closeFiles, hclose], hkept, .inr ⟨ip, rfl⟩⟩

theorem closeFiles_unheld (rest : List FileId) (hbooks : Books T fun g => -(rest.count g : Int))
    (htype : ∀ f ∈ rest, (T.file f).type ≠ .inode) (hsound : Sound T new) :
    ∃ T', closeFiles rest T = some (T', .user) ∧ Books T' (fun _ => 0) ∧ Sound T' new ∧
      T'.ofile = T.ofile ∧ ∀ g, g ∉ rest → T'.file g = T.file g := by
  induction rest generalizing T with
  | nil => exact ⟨T, rfl, hbooks.congr fun _ => rfl, hsound, rfl, fun _ _ => rfl⟩
  | cons f rest ih =>
    have hpos : 0 < (T.file f).ref := by
      have hf := hbooks f
      simp only [List.count_cons_self] at hf
      omega
    obtain ⟨T1, r, hclose⟩ := exists_fileclose hpos
    have hclosed := closed_of_fileclose hclose
    have hr : r = none := by
      by_contra hr
      exact htype f List.mem_cons_self (hclosed.sleeps hr).2
    subst hr
    have hbooks1 : Books T1 fun g => -(rest.count g : Int) := by
      refine (hclosed.books hbooks).congr fun g => ?_
      by_cases hg : g = f
      · subst hg
        simp only [List.count_cons_self, single_self]
        omega
      · simp only [List.count_cons_of_ne (Ne.symm hg), single_ne hg]
        omega
    have htype1 : ∀ g ∈ rest, (T1.file g).type ≠ .inode := by
      intro g hg
      by_cases hgf : g = f
      · subst hgf
        by_cases href : (T1.file g).ref = 0
        · simp [hclosed.none href]
        · rw [hclosed.type href]
          exact htype g List.mem_cons_self
      · rw [hclosed.other g hgf]
        exact htype g (List.mem_cons_of_mem f hg)
    obtain ⟨T', hloop, hbooks', hsound', hofile, hother⟩ := ih hbooks1 htype1 (hclosed.sound hsound)
    refine ⟨T', by simp [closeFiles, hclose, hloop], hbooks', hsound', hofile.trans hclosed.ofile,
      ?_⟩
    intro g hg
    rw [List.mem_cons, not_or] at hg
    rw [hother g hg.2, hclosed.other g hg.1]

theorem kept_exitLoop (rest : List Fd) (hbooks : Books T fun _ => 0) (hsound : Sound T new) :
    ∃ T' pc, exitLoop p rest T = some (T', pc) ∧ Frame p T T' ∧ Sound T' new ∧
      ((pc = .exitCwd .beginOp ∧ Books T' fun _ => 0) ∨
        ∃ ip fd rest' f, pc = .closing ip .beginOp (.exit fd rest') ∧
          T'.ofile (p, fd) = some f ∧ (T'.file f).ref = 0 ∧ Books T' (single f)) := by
  induction rest generalizing T with
  | nil => exact ⟨T, _, rfl, Frame.of_eq rfl fun _ => rfl, hsound, .inl ⟨rfl, hbooks⟩⟩
  | cons fd rest ih =>
    cases hslot : T.ofile (p, fd) with
    | none =>
      obtain ⟨T', pc, hloop, hrest⟩ := ih hbooks hsound
      exact ⟨T', pc, by simp [exitLoop, hslot, hloop], hrest⟩
    | some f =>
      obtain ⟨T1, r, hclose⟩ := exists_fileclose (hbooks.ref_pos hslot)
      have hclosed := closed_of_fileclose hclose
      have hbooks1 := hclosed.books hbooks
      have hslot1 : T1.ofile (p, fd) = some f := by rw [hclosed.ofile, hslot]
      cases r with
      | none =>
        have hcleared : Books (T1.setSlot (p, fd) none) fun _ => 0 :=
          (hbooks1.clear hslot1).congr fun g => by omega
        obtain ⟨T', pc, hloop, hframe, hrest⟩ := ih hcleared ((hclosed.sound hsound).congr rfl)
        refine ⟨T', pc, by simp [exitLoop, hslot, hclose, hloop], ?_, hrest⟩
        refine Frame.trans (Frame.of_own ?_ ?_ hslot fun g hg => ?_) hframe
        · intro q fd' g hq hslot'
          rw [setSlot_other (by simp [hq]), hclosed.ofile, hslot']
        · intro fd' g hslot'
          exact ⟨fd', hclosed.ofile ▸ setSlot_none_some hslot'⟩
        · exact congrArg File.ref (hclosed.other g hg)
      | some ip =>
        refine ⟨T1, _, by simp [exitLoop, hslot, hclose], ?_, hclosed.sound hsound,
          .inr ⟨ip, fd, rest, f, rfl, hslot1, (hclosed.sleeps (by simp)).1, ?_⟩⟩
        · refine Frame.of_own ?_ ?_ hslot fun g hg => by rw [hclosed.other g hg]
          · intro q fd' g _ hslot'
            rw [hclosed.ofile, hslot']
          · intro fd' g hslot'
            exact ⟨fd', by rw [← hclosed.ofile, hslot']⟩
        · exact hbooks1.congr fun g => by omega

theorem kept_dup (hbooks : Books T fun _ => 0) (hsound : Sound T new)
    (hheld : T.ofile (p, fd') = some f) (hfd : fdalloc T p f = some (T', fd)) :
    ∃ T'', filedup T' f = some T'' ∧ Kept p new T T'' := by
  obtain ⟨hnone, rfl⟩ := fdalloc_some hfd
  have hpos : 0 < ((T.setSlot (p, fd) (some f)).file f).ref := hbooks.ref_pos hheld
  refine ⟨_, by rw [filedup, if_neg (by omega)], ?_⟩
  refine ⟨Frame.of_own ?_ ?_ hheld fun g hg => by simp [Tables.setFile, Tables.setSlot, hg], ?_, ?_⟩
  · intro q fd'' g hq hslot
    exact (setSlot_other (by simp [hq])).trans hslot
  · intro fd'' g hslot
    by_cases heq : fd'' = fd
    · subst heq
      simp only [Tables.setFile, Tables.setSlot, update_self, Option.some.injEq] at hslot
      exact ⟨fd', hslot ▸ hheld⟩
    · exact ⟨fd'', (setSlot_other (by simp [heq])).symm.trans hslot⟩
  · have hstored : Sound (T.setSlot (p, fd) (some f)) new := hsound.congr rfl
    apply hstored.setFile
    · simp
    · exact fun _ => hsound.typed f (Nat.ne_of_gt hpos)
  · exact ((hbooks.store hnone).dup).congr fun g => by omega

theorem kept_forkLoop (rest : List Fd) (hnodup : rest.Nodup) (hchild : child ≠ p)
    (hclear : ∀ fd ∈ rest, T.ofile (p, fd) ≠ none → T.ofile (child, fd) = none)
    (hbooks : Books T fun _ => 0) (hsound : Sound T new) :
    ∃ T', forkLoop p child rest T = some T' ∧ Kept p new T T' := by
  induction rest generalizing T with
  | nil => exact ⟨T, rfl, Frame.of_eq rfl fun _ => rfl, hsound, hbooks⟩
  | cons fd rest ih =>
    obtain ⟨hfd, hnodup⟩ := List.nodup_cons.mp hnodup
    cases hslot : T.ofile (p, fd) with
    | none =>
      obtain ⟨T', hloop, hkept⟩ :=
        ih hnodup (fun fd' hfd' => hclear fd' (List.mem_cons_of_mem fd hfd')) hbooks hsound
      exact ⟨T', by simp [forkLoop, hslot, hloop], hkept⟩
    | some f =>
      have hpos := hbooks.ref_pos hslot
      have hnone : T.ofile (child, fd) = none := hclear fd List.mem_cons_self (by simp [hslot])
      -- the tables after this turn
      let T1 := T.setFile f { T.file f with ref := (T.file f).ref + 1 }
      have hslots : ∀ slot, slot ≠ (child, fd) →
          (T1.setSlot (child, fd) (some f)).ofile slot = T.ofile slot :=
        fun slot hne => setSlot_other hne
      have hclear1 : ∀ fd' ∈ rest, (T1.setSlot (child, fd) (some f)).ofile (p, fd') ≠ none →
          (T1.setSlot (child, fd) (some f)).ofile (child, fd') = none := by
        intro fd' hfd' hheld
        rw [hslots _ (by simp [Ne.symm hchild])] at hheld
        rw [hslots _ fun heq => hfd ((Prod.mk.inj heq).2 ▸ hfd')]
        exact hclear fd' (List.mem_cons_of_mem fd hfd') hheld
      have hbooks1 : Books (T1.setSlot (child, fd) (some f)) fun _ => 0 :=
        (hbooks.dup.store hnone).congr fun g => by omega
      have hsound1 : Sound T1 new := by
        apply hsound.setFile
        · simp
        · exact fun _ => hsound.typed f (Nat.ne_of_gt hpos)
      obtain ⟨T', hloop, hkept⟩ := ih hnodup hclear1 hbooks1 (hsound1.congr rfl)
      refine ⟨T', ?_, Frame.trans (Frame.of_own ?_ ?_ hslot ?_) hkept.frame, hkept.sound,
        hkept.books⟩
      · simp [forkLoop, hslot, filedup, Nat.ne_of_gt hpos, T1, hloop]
      · intro q fd' g _ hslot'
        rw [hslots _ (fun heq => by simp [heq, hnone] at hslot'), hslot']
      · intro fd' g hslot'
        rw [hslots _ (by simp [Ne.symm hchild])] at hslot'
        exact ⟨fd', hslot'⟩
      · intro g hg
        simp [T1, Tables.setFile, Tables.setSlot, hg]

/-- The files `taken` come from the free ones and are in no slot yet. -/
structure Taken (new : FileId → Prop) (T : Tables) (taken : List FileId) (T' : Tables) : Prop where
  ofile : T'.ofile = T.ofile
  books : Books T' fun g => -(taken.count g : Int)
  free : ∀ f ∈ taken, (T.file f).ref = 0
  type : ∀ f ∈ taken, (T'.file f).type ≠ .inode
  other : ∀ g, g ∉ taken → T'.file g = T.file g
  sound : Sound T' fun g => new g ∨ g ∈ taken

variable {taken : List FileId}

theorem Taken.nil (hbooks : Books T fun _ => 0) (hsound : Sound T new) : Taken new T [] T :=
  ⟨rfl, hbooks.congr fun _ => rfl, by simp, by simp, fun _ _ => rfl, hsound.mono fun _ => Or.inl⟩

theorem count_concat (taken : List FileId) (f g : FileId) :
    ((taken ++ [f]).count g : Int) = taken.count g + single f g := by
  rw [List.count_append, Int.natCast_add]
  by_cases hg : g = f
  · simp [hg]
  · simp [single_ne hg, Ne.symm hg]

theorem Taken.alloc (h : Taken new T taken T') (hfile : filealloc T' = some (T'', f)) :
    Taken new T (taken ++ [f]) T'' ∧ f ∉ taken := by
  obtain ⟨hfree, rfl⟩ := filealloc_some hfile
  have hf : f ∉ taken := by
    intro hmem
    have hcount := h.books f
    have hpos := List.count_pos_iff.mpr hmem
    simp only [hfree] at hcount
    omega
  have hkeep : ∀ g ∈ taken, g ≠ f := fun g hg heq => hf (heq ▸ hg)
  refine ⟨⟨h.ofile, ?_, ?_, ?_, ?_, ?_⟩, hf⟩
  · exact (h.books.alloc hfree).congr fun g => by rw [count_concat]; omega
  · intro g hg
    rcases List.mem_append.mp hg with hg | hg
    · exact h.free g hg
    · rw [List.mem_singleton.mp hg, ← h.other f hf]
      exact hfree
  · intro g hg
    rcases List.mem_append.mp hg with hg | hg
    · simp only [Tables.setFile, update_of_ne (hkeep g hg)]
      exact h.type g hg
    · simp [List.mem_singleton.mp hg, Tables.setFile, h.sound.free f hfree]
  · intro g hg
    simp only [List.mem_append, List.mem_singleton, not_or] at hg
    simp only [Tables.setFile, update_of_ne hg.2]
    exact h.other g hg.1
  · have hmono : Sound T' fun g => new g ∨ g ∈ taken ++ [f] :=
      h.sound.mono fun g hg => hg.imp id (List.mem_append_left [f])
    apply hmono.setFile
    · simp
    · simp

theorem Taken.giveBack (h : Taken new T taken T') (hbooks : Books T fun _ => 0) :
    ∃ T'', closeFiles taken T' = some (T'', .user) ∧ Kept p new T T'' := by
  obtain ⟨T'', hloop, hbooks'', hsound'', hofile'', hother''⟩ :=
    closeFiles_unheld taken h.books h.type h.sound
  have hofile : T''.ofile = T.ofile := hofile''.trans h.ofile
  refine ⟨T'', hloop, Frame.of_free ?_ ?_ ?_, hsound''.drop ?_, hbooks''⟩
  · intro slot g hslot
    rw [hofile, hslot]
  · intro fd g hslot
    rw [hofile] at hslot
    exact .inl hslot
  · intro g hused
    have hg : g ∉ taken := fun hmem => hused (h.free g hmem)
    rw [hother'' g hg, h.other g hg]
  · intro g hnew
    refine hnew.symm.imp (fun hmem => ?_) id
    have hcount := hbooks g
    have hcount'' := hbooks'' g
    simp only [slots, hofile, h.free g hmem] at hcount hcount''
    omega

theorem Taken.kept (h : Taken new T taken T') (hbooks : Books T'' fun _ => 0)
    (hfile : T''.file = T'.file)
    (hslots : ∀ slot g, T.ofile slot = some g → T''.ofile slot = some g)
    (hown : ∀ fd g, T''.ofile (p, fd) = some g → T.ofile (p, fd) = some g ∨ g ∈ taken) :
    Kept p (fun g => new g ∨ g ∈ taken) T T'' := by
  refine ⟨Frame.of_free hslots ?_ ?_, h.sound.congr hfile, hbooks⟩
  · exact fun fd g hslot => (hown fd g hslot).imp id (h.free g)
  · intro g hused
    rw [hfile, h.other g fun hmem => hused (h.free g hmem)]

theorem store_keeps (hnone : T.ofile slot = none) {slot' : Slot}
    (h : T.ofile slot' = some g) : (T.setSlot slot (some f)).ofile slot' = some g := by
  rw [setSlot_other fun heq => by simp [heq, hnone] at h, h]

theorem store_some {slot' : Slot} (h : (T.setSlot slot (some f)).ofile slot' = some g) :
    T.ofile slot' = some g ∨ g = f := by
  by_cases heq : slot' = slot
  · right
    simpa [Tables.setSlot, heq, eq_comm] using h
  · left
    rwa [setSlot_other heq] at h

theorem fileclose_of_closeFiles (h : closeFiles [f] T = some (T', .user)) :
    fileclose T f = some (T', none) := by
  cases hclose : fileclose T f with
  | none => simp [closeFiles, hclose] at h
  | some result =>
    obtain ⟨T1, _ | ip⟩ := result
    · simp only [closeFiles, hclose, Option.some.injEq, Prod.mk.injEq, and_true] at h
      rw [h]
    · simp [closeFiles, hclose] at h

theorem kept_openFile (omode ip : Nat) (hbooks : Books T fun _ => 0) (hsound : Sound T new) :
    ∃ T' pc, openFile T p omode ip = some (T', pc) ∧
      ((pc = .openFailed ip ∧ Kept p new T T') ∨
        ∃ fd f, pc = .opened fd f omode ip ∧ Kept p (fun g => new g ∨ g = f) T T' ∧
          T'.ofile (p, fd) = some f ∧ (T'.file f).ref = 1) := by
  cases hfile : filealloc T with
  | none =>
    refine ⟨T, .openFailed ip, by simp [openFile, hfile], .inl ⟨rfl, ?_⟩⟩
    exact ⟨Frame.of_eq rfl fun _ => rfl, hsound, hbooks⟩
  | some result =>
    obtain ⟨T1, f⟩ := result
    have htaken : Taken new T [f] T1 := ((Taken.nil hbooks hsound).alloc hfile).1
    cases hfd : fdalloc T1 p f with
    | some result =>
      obtain ⟨T2, fd⟩ := result
      obtain ⟨hnone, hT2⟩ := fdalloc_some hfd
      have hT1 := (filealloc_some hfile).2
      have hbooks2 : Books T2 fun _ => 0 := by
        rw [hT2]
        exact (htaken.books.store hnone).congr fun g => by
          rw [show ([f].count g : Int) = 0 + single f g from count_concat [] f g]
          omega
      have hkept : Kept p (fun g => new g ∨ g ∈ [f]) T T2 := by
        apply htaken.kept hbooks2 (by rw [hT2]; rfl)
        · intro slot g hslot
          rw [← htaken.ofile] at hslot
          rw [hT2, store_keeps hnone hslot]
        · intro fd' g hslot
          rw [hT2] at hslot
          rw [← htaken.ofile, List.mem_singleton]
          exact store_some hslot
      simp only [List.mem_singleton] at hkept
      refine ⟨T2, _, by simp [openFile, hfile, hfd], .inr ⟨fd, f, rfl, hkept, ?_, ?_⟩⟩
      · simp [hT2, Tables.setSlot]
      · simp [hT2, hT1, Tables.setSlot, Tables.setFile]
    | none =>
      obtain ⟨T2, hclose, hkept⟩ := htaken.giveBack (p := p) hbooks
      exact ⟨T2, _, by simp [openFile, hfile, hfd, fileclose_of_closeFiles hclose],
        .inl ⟨rfl, hkept⟩⟩

theorem pipeInit_ref (T : Tables) (f0 f1 : FileId) (q : Nat) (g : FileId) :
    ((pipeInit T f0 f1 q).file g).ref = (T.file g).ref := by
  by_cases h1 : g = f1 <;> by_cases h0 : g = f0 <;> by_cases h : f1 = f0 <;>
    simp_all [pipeInit, Tables.setFile]

theorem pipeInit_type {q : Nat} (h : g ∈ [f0, f1]) :
    ((pipeInit T f0 f1 q).file g).type = .pipe := by
  by_cases h1 : g = f1
  · simp [pipeInit, Tables.setFile, h1]
  · have h0 : g = f0 := by simpa [h1] using h
    simp [pipeInit, Tables.setFile, h0, h0 ▸ h1]

theorem Taken.pipeInit (h : Taken new T [f0, f1] T') (q : Nat) :
    Taken new T [f0, f1] (pipeInit T' f0 f1 q) := by
  have hsame : ∀ g, g ∉ [f0, f1] → (Files.pipeInit T' f0 f1 q).file g = T'.file g := by
    intro g hg
    simp only [List.mem_cons, List.not_mem_nil, or_false, not_or] at hg
    simp [Files.pipeInit, Tables.setFile, hg.1, hg.2]
  refine ⟨h.ofile, ?_, h.free, ?_, ?_, ⟨?_, ?_⟩⟩
  · intro g
    rw [pipeInit_ref]
    exact h.books g
  · intro f hf
    simp [pipeInit_type hf]
  · intro g hg
    rw [hsame g hg, h.other g hg]
  · intro g href
    by_cases hg : g ∈ [f0, f1]
    · have hcount := h.books g
      have hpos := List.count_pos_iff.mpr hg
      rw [pipeInit_ref] at href
      simp only [href] at hcount
      omega
    · rw [hsame g hg] at href ⊢
      exact h.sound.free g href
  · intro g href htype
    by_cases hg : g ∈ [f0, f1]
    · exact .inr hg
    · rw [hsame g hg] at href htype
      exact h.sound.typed g href htype

theorem kept_pipe_stored {fd0 fd1 : Fd} {T2 T3 : Tables} {q : Nat}
    (h : Taken new T [f0, f1] (pipeInit T' f0 f1 q))
    (hfd0 : fdalloc (pipeInit T' f0 f1 q) p f0 = some (T2, fd0))
    (hfd1 : fdalloc T2 p f1 = some (T3, fd1)) : Kept p new T T3 := by
  obtain ⟨hnone0, hT2⟩ := fdalloc_some hfd0
  obtain ⟨hnone1, hT3⟩ := fdalloc_some hfd1
  have hfile : T3.file = (pipeInit T' f0 f1 q).file := by rw [hT3, hT2]; rfl
  have hbooks : Books T3 fun _ => 0 := by
    rw [hT3, hT2]
    rw [hT2] at hnone1
    exact ((h.books.store hnone0).store hnone1).congr fun g => by
      rw [show ([f0, f1].count g : Int) = [f0].count g + single f1 g from count_concat [f0] f1 g,
        show ([f0].count g : Int) = 0 + single f0 g from count_concat [] f0 g]
      omega
  have hkept : Kept p (fun g => new g ∨ g ∈ [f0, f1]) T T3 := by
    apply h.kept hbooks hfile
    · intro slot g hslot
      rw [← h.ofile] at hslot
      rw [hT3, store_keeps hnone1 (hT2 ▸ store_keeps hnone0 hslot)]
    · intro fd g hslot
      rw [hT3] at hslot
      rw [← h.ofile]
      rcases store_some hslot with hslot | rfl
      · rw [hT2] at hslot
        rcases store_some hslot with hslot | rfl
        · exact .inl hslot
        · exact .inr List.mem_cons_self
      · exact .inr (by simp)
  refine ⟨hkept.frame, ⟨hkept.sound.free, fun g href htype => ?_⟩, hbooks⟩
  rcases hkept.sound.typed g href htype with hnew | hmem
  · exact hnew
  · rw [hfile, pipeInit_type hmem] at htype
    cases htype

theorem kept_pipe (page : Option Nat) (hbooks : Books T fun _ => 0) (hsound : Sound T new) :
    ∃ T', pipe T p page = some (T', .user) ∧ Kept p new T T' := by
  cases hfile0 : filealloc T with
  | none =>
    exact ⟨T, by simp [pipe, hfile0], Frame.of_eq rfl fun _ => rfl, hsound, hbooks⟩
  | some result =>
    obtain ⟨T0, f0⟩ := result
    have htaken0 : Taken new T [f0] T0 := ((Taken.nil hbooks hsound).alloc hfile0).1
    cases hfile1 : filealloc T0 with
    | none =>
      obtain ⟨T', hclose, hkept⟩ := htaken0.giveBack (p := p) hbooks
      exact ⟨T', by simp [pipe, hfile0, hfile1, hclose], hkept⟩
    | some result =>
      obtain ⟨T1, f1⟩ := result
      have htaken1 : Taken new T [f0, f1] T1 := (htaken0.alloc hfile1).1
      cases page with
      | none =>
        obtain ⟨T', hclose, hkept⟩ := htaken1.giveBack (p := p) hbooks
        exact ⟨T', by simp [pipe, hfile0, hfile1, hclose], hkept⟩
      | some q =>
        have hinit := htaken1.pipeInit q
        obtain ⟨T', hclose, hkept⟩ := hinit.giveBack (p := p) hbooks
        cases hfd0 : fdalloc (pipeInit T1 f0 f1 q) p f0 with
        | none => exact ⟨T', by simp [pipe, hfile0, hfile1, hfd0, hclose], hkept⟩
        | some result =>
          obtain ⟨T2, fd0⟩ := result
          cases hfd1 : fdalloc T2 p f1 with
          | none =>
            obtain ⟨hnone, hT2⟩ := fdalloc_some hfd0
            have hundo : T2.setSlot (p, fd0) none = pipeInit T1 f0 f1 q := by
              simp [hT2, Tables.setSlot, ← hnone]
            exact ⟨T', by simp [pipe, hfile0, hfile1, hfd0, hfd1, hundo, hclose], hkept⟩
          | some result =>
            obtain ⟨T3, fd1⟩ := result
            exact ⟨T3, by simp [pipe, hfile0, hfile1, hfd0, hfd1],
              kept_pipe_stored hinit hfd0 hfd1⟩

end Xv6.Files
