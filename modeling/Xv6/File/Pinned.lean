import Xv6.File.Consistent

/-! Reads and writes in progress against `close` of a sibling. `argfd` takes no
reference, so what a thread inside `fileread` or `filewrite` works on is kept
only by the slots. -/
namespace Xv6.Files
open Function Transition Tally

variable {s s' : State} {t u : Thread} {T T' : Tables} {p : Proc} {fd : Fd} {f g : FileId}
  {pc : Pc} {q q' : Nat} {w : Bool} {r : Option Nat}

def Pipe.isOpen (pipe : Pipe) (writable : Bool) : Bool :=
  if writable then pipe.writeopen else pipe.readopen

def opens (T : Tables) (ip : Nat) : Nat :=
  tally (fun file => file.ref != 0 && file.type == .inode && file.ip == ip) T.file

def Pc.drops (ip : Nat) : Pc → Bool
  | .closing n .beginOp _ | .closing n .iput _ => n == ip
  | _ => false

def Pc.uses : Pc → Option FileId
  | .piperead f _ | .pipewrite f _ | .fileread f | .filewrite f => some f
  | _ => none

structure Objects (T : Tables) : Prop where
  refs : ∀ f, (T.file f).ref = slots T f
  typed : ∀ f, (T.file f).ref = 0 ↔ (T.file f).type = .none
  pipe : ∀ f, (T.file f).type = .pipe → (T.pipe (T.file f).pipe).allocated = true ∧
    (T.pipe (T.file f).pipe).isOpen (T.file f).writable = true
  ends : ∀ f g, (T.file f).type = .pipe → (T.file g).type = .pipe →
    (T.file f).pipe = (T.file g).pipe → (T.file f).writable = (T.file g).writable → f = g

structure Ready (s : State) : Prop where
  panic : s.panic = none
  pc : ∀ t, s.pc t = .user
  objects : Objects s.tables
  inodes : ∀ ip, (opens s.tables ip : Int) ≤ s.tables.iref ip

def Inside (T : Tables) : Pc → Prop
  | .user => True
  | .closing _ _ next => next = .files []
  | .piperead f q | .pipewrite f q => (T.file f).type = .pipe ∧ (T.file f).pipe = q
  | .fileread f | .filewrite f => (T.file f).type = .inode
  | _ => False

structure Pins (s : State) : Prop where
  panic : s.panic = none
  objects : Objects s.tables
  inodes : ∀ ip, ((opens s.tables ip + tally (Pc.drops ip) s.pc : Nat) : Int) ≤ s.tables.iref ip
  inside : ∀ t, Inside s.tables (s.pc t)

theorem Ready.pins (h : Ready s) : Pins s where
  panic := h.panic
  objects := h.objects
  inodes := fun ip => by
    have hnone : tally (Pc.drops ip) s.pc = 0 := tally_eq_zero fun t => by rw [h.pc t]; rfl
    rw [hnone]
    exact h.inodes ip
  inside := fun t => by
    rw [h.pc t]
    trivial

def File.shut (file : File) : File := { file with ref := 0, type := .none }

theorem fileclose_cases (h : fileclose T f = some (T', r)) :
    (1 < (T.file f).ref ∧ r = none ∧
        T' = T.setFile f { T.file f with ref := (T.file f).ref - 1 }) ∨
      ((T.file f).ref = 1 ∧ (T.file f).type = .pipe ∧ r = none ∧
        T' = pipeclose (T.setFile f (T.file f).shut) (T.file f).pipe (T.file f).writable) ∨
      ((T.file f).ref = 1 ∧ (T.file f).type = .inode ∧ r = some (T.file f).ip ∧
        T' = T.setFile f (T.file f).shut) ∨
      ((T.file f).ref = 1 ∧ (T.file f).type = .none) := by
  simp only [fileclose] at h
  split at h
  · cases h
  · split at h
    · rename_i hmany
      cases h
      exact .inl ⟨hmany, rfl, rfl⟩
    · have hone : (T.file f).ref = 1 := by omega
      split at h <;> rename_i htype <;> cases h
      · exact .inr (.inl ⟨hone, htype, rfl, rfl⟩)
      · exact .inr (.inr (.inl ⟨hone, htype, rfl, rfl⟩))
      · exact .inr (.inr (.inr ⟨hone, htype⟩))

theorem pipeclose_other (hq : q' ≠ q) : (pipeclose T q w).pipe q' = T.pipe q' := by
  simp [pipeclose, hq]

theorem pipeclose_open (hopen : (T.pipe q).isOpen (!w) = true) :
    ((pipeclose T q w).pipe q).allocated = (T.pipe q).allocated ∧
      ((pipeclose T q w).pipe q).isOpen (!w) = true := by
  cases w <;> simp_all [pipeclose, Pipe.isOpen]

theorem opens_congr (h : T'.file = T.file) (ip : Nat) : opens T' ip = opens T ip := by
  rw [opens, h, opens]

theorem opens_setFile_keep {file : File} (hused : file.ref = 0 ↔ (T.file f).ref = 0)
    (htype : file.type = (T.file f).type) (hip : file.ip = (T.file f).ip) (ip : Nat) :
    opens (T.setFile f file) ip = opens T ip := by
  apply tally_keep
  have hbne : (file.ref != 0) = ((T.file f).ref != 0) := by
    by_cases h : file.ref = 0
    · simp [h, hused.mp h]
    · have h' : (T.file f).ref ≠ 0 := fun h' => h (hused.mpr h')
      rw [bne_iff_ne.mpr h, bne_iff_ne.mpr h']
  rw [hbne, htype, hip]

theorem opens_shut_inode (href : (T.file f).ref ≠ 0) (htype : (T.file f).type = .inode) :
    opens (T.setFile f (T.file f).shut) (T.file f).ip + 1 = opens T (T.file f).ip :=
  tally_leave (by simp [href, htype]) (by simp [File.shut])

theorem opens_shut_other {ip : Nat} (h : (T.file f).type ≠ .inode ∨ (T.file f).ip ≠ ip) :
    opens (T.setFile f (T.file f).shut) ip = opens T ip := by
  apply tally_keep
  rcases h with htype | hip
  · simp [File.shut, htype]
  · simp [File.shut, hip]

theorem Objects.books (h : Objects T) : Books T fun _ => 0 := fun f => by
  rw [h.refs f, Int.add_zero]

theorem Objects.sound (h : Objects T) : Sound T fun _ => False where
  free := fun f => (h.typed f).mp
  typed := fun f href htype => href ((h.typed f).mpr htype)

theorem fileclose_same (h : fileclose T f = some (T', r)) (htype : (T'.file g).type ≠ .none) :
    (T'.file g).type = (T.file g).type ∧ (T'.file g).pipe = (T.file g).pipe ∧
      (T'.file g).writable = (T.file g).writable ∧ (T'.file g).ip = (T.file g).ip := by
  have hclosed := closed_of_fileclose h
  by_cases hg : g = f
  · subst hg
    have href : (T'.file g).ref ≠ 0 := fun hzero => htype (hclosed.none hzero)
    have hcount := hclosed.ref
    rcases fileclose_cases h with ⟨_, _, hT'⟩ | ⟨hone, _⟩ | ⟨hone, _⟩ | ⟨hone, _⟩
    · simp [hT', Tables.setFile]
    all_goals omega
  · simp [hclosed.other g hg]

theorem fileclose_pipe (h : fileclose T f = some (T', r)) :
    T'.pipe = T.pipe ∨ ((T.file f).type = .pipe ∧ (T'.file f).type = .none ∧
      T'.pipe = (pipeclose T (T.file f).pipe (T.file f).writable).pipe) := by
  rcases fileclose_cases h with ⟨_, _, hT'⟩ | ⟨_, htype, _, hT'⟩ | ⟨_, _, _, hT'⟩ | ⟨hone, htype⟩
  · exact .inl (by rw [hT']; rfl)
  · exact .inr ⟨htype, by simp [hT', pipeclose, Tables.setFile, File.shut], by rw [hT']; rfl⟩
  · exact .inl (by rw [hT']; rfl)
  · left
    simp only [fileclose, hone, htype, Nat.lt_irrefl, if_false] at h
    cases h
    rfl

theorem Objects.close (h : Objects T) (hslot : T.ofile (p, fd) = some f)
    (hclose : fileclose (T.setSlot (p, fd) none) f = some (T', r)) : Objects T' := by
  have hclosed := closed_of_fileclose hclose
  have hbooks : Books T' fun _ => 0 :=
    (hclosed.books (h.books.clear hslot)).congr fun g => by omega
  have hsound : Sound T' fun _ => False := hclosed.sound (h.sound.congr rfl)
  have hsame : ∀ g, (T'.file g).type = .pipe → (T.file g).type = .pipe ∧
      (T'.file g).pipe = (T.file g).pipe ∧ (T'.file g).writable = (T.file g).writable := by
    intro g htype
    obtain ⟨htype', hpipe, hwritable, _⟩ := fileclose_same hclose (g := g) (by simp [htype])
    exact ⟨htype'.symm.trans htype, hpipe, hwritable⟩
  constructor
  · intro g
    have hg := hbooks g
    simp only [Int.add_zero] at hg
    omega
  · intro g
    refine ⟨hsound.free g, fun htype => ?_⟩
    by_contra href
    exact hsound.typed g href htype
  · intro g htype
    obtain ⟨htypeg, hpipe, hwritable⟩ := hsame g htype
    obtain ⟨halloc, hopen⟩ := h.pipe g htypeg
    rw [hpipe, hwritable]
    rcases fileclose_pipe hclose with hkeep | ⟨htypef, hshut, hpipeclose⟩
    · rw [hkeep]
      exact ⟨halloc, hopen⟩
    · have hne : g ≠ f := by
        intro heq
        rw [heq, hshut] at htype
        cases htype
      rw [hpipeclose]
      by_cases hpage : (T.file g).pipe = (T.file f).pipe
      · -- the two ends of one pipe
        have hend : (T.file g).writable = !(T.file f).writable :=
          Bool.eq_not.mpr fun heq => hne (h.ends g f htypeg htypef hpage heq)
        rw [hend, hpage] at hopen
        obtain ⟨halloc', hopen'⟩ := pipeclose_open (T := T.setSlot (p, fd) none) hopen
        rw [hpage, hend]
        exact ⟨halloc'.trans (hpage ▸ halloc), hopen'⟩
      · have hother := pipeclose_other (T := T.setSlot (p, fd) none)
          (w := (T.file f).writable) hpage
        exact ⟨(congrArg Pipe.allocated hother).trans halloc,
          (congrArg (Pipe.isOpen · (T.file g).writable) hother).trans hopen⟩
  · intro g g' htype htype' hpage hend
    obtain ⟨htypeg, hpipe, hwritable⟩ := hsame g htype
    obtain ⟨htypeg', hpipe', hwritable'⟩ := hsame g' htype'
    exact h.ends g g' htypeg htypeg' (by rw [← hpipe, ← hpipe', hpage])
      (by rw [← hwritable, ← hwritable', hend])

theorem Inside.congr (h : Inside T pc)
    (hsame : ∀ f, pc.uses = some f → (T'.file f).type = (T.file f).type ∧
      (T'.file f).pipe = (T.file f).pipe) : Inside T' pc := by
  match pc with
  | .user => trivial
  | .closing _ _ _ => exact h
  | .piperead f q | .pipewrite f q =>
    obtain ⟨htype, hpipe⟩ := hsame f rfl
    exact ⟨htype.trans h.1, hpipe.trans h.2⟩
  | .fileread f | .filewrite f => exact (hsame f rfl).1.trans h
  | .open _ | .opened _ _ _ _ | .openFailed _ | .endOp | .exitCwd _ => exact h.elim

theorem Pins.enter (h : Pins s) (hobjects : Objects T')
    (hinodes : ∀ ip, ((opens T' ip + tally (Pc.drops ip) (update s.pc t pc) : Nat) : Int) ≤
      T'.iref ip)
    (hself : Inside T' pc) (hother : ∀ u, u ≠ t → Inside T' (s.pc u)) :
    Pins (s.enter t T' pc) where
  panic := h.panic
  objects := hobjects
  inodes := hinodes
  inside := fun u => by
    by_cases hu : u = t
    · subst hu
      simpa [State.enter] using hself
    · simpa [State.enter, hu] using hother u hu

theorem Pins.walk (h : Pins s) (hdrops : ∀ ip, pc.drops ip = (s.pc t).drops ip)
    (hself : Inside s.tables pc) : Pins (s.enter t s.tables pc) := by
  apply h.enter h.objects
  · intro ip
    rw [tally_keep (hdrops ip)]
    exact h.inodes ip
  · exact hself
  · exact fun u _ => h.inside u

theorem fileclose_inodes (h : fileclose T f = some (T', r)) (htyped : (T.file f).type ≠ .none) :
    T'.iref = T.iref ∧ ∀ ip, opens T' ip + (if r = some ip then 1 else 0) = opens T ip := by
  rcases fileclose_cases h with
    ⟨hmany, rfl, hT'⟩ | ⟨hone, htype, rfl, hT'⟩ | ⟨hone, htype, rfl, hT'⟩ | ⟨_, htype⟩
  · refine ⟨by rw [hT']; rfl, fun ip => ?_⟩
    have hkeep : opens T' ip = opens T ip := by
      rw [hT']
      apply opens_setFile_keep
      · simp only
        omega
      · rfl
      · rfl
    simp [hkeep]
  · refine ⟨by rw [hT']; rfl, fun ip => ?_⟩
    have hfile : T'.file = (T.setFile f (T.file f).shut).file := by rw [hT']; rfl
    simp [opens_congr hfile, opens_shut_other (.inl (by simp [htype] : (T.file f).type ≠ .inode))]
  · refine ⟨by rw [hT']; rfl, fun ip => ?_⟩
    rw [hT']
    by_cases hip : (T.file f).ip = ip
    · subst hip
      rw [if_pos rfl]
      exact opens_shut_inode (by omega) htype
    · rw [if_neg (by simpa using hip), opens_shut_other (.inr hip), Nat.add_zero]
  · exact absurd htype htyped

section

variable (h : Pins s) (hpc : s.pc t = .user)
include h hpc

theorem inodes_close (hused : (s.tables.file f).ref ≠ 0)
    (hclose : fileclose (s.tables.setSlot (t.1, fd) none) f = some (T', r)) (ip : Nat) :
    ((opens T' ip + tally (Pc.drops ip) (update s.pc t
      (r.elim .user fun n => .closing n .beginOp (.files []))) : Nat) : Int) ≤ T'.iref ip := by
  have hinodes := h.inodes ip
  have htyped : (s.tables.file f).type ≠ .none := fun htype =>
    hused ((h.objects.typed f).mpr htype)
  obtain ⟨hiref, hopens⟩ := fileclose_inodes hclose htyped
  have hslots : opens (s.tables.setSlot (t.1, fd) none) ip = opens s.tables ip :=
    opens_congr rfl ip
  have hcount := (hopens ip).trans hslots
  rw [show T'.iref ip = s.tables.iref ip from congrFun hiref ip]
  have hdrops : (s.pc t).drops ip = false := by rw [hpc]; rfl
  by_cases hr : r = some ip
  · subst hr
    have hjoin : tally (Pc.drops ip) (update s.pc t (.closing ip .beginOp (.files []))) =
        tally (Pc.drops ip) s.pc + 1 := tally_join hdrops (by simp [Pc.drops])
    simp only [Option.elim_some, hjoin, if_true] at hcount ⊢
    omega
  · have hkeep : tally (Pc.drops ip) (update s.pc t
        (r.elim .user fun n => .closing n .beginOp (.files []))) = tally (Pc.drops ip) s.pc := by
      apply tally_keep
      rw [hdrops]
      cases r with
      | none => rfl
      | some n => simpa [Pc.drops] using hr
    rw [hkeep]
    rw [if_neg hr] at hcount
    omega

theorem pins_close (hslot : s.tables.ofile (t.1, fd) = some f)
    (hkeeps : (s.tables.file f).ref = 1 → ∀ u, (s.pc u).uses ≠ some f) :
    Pins (s.proceed t (closeFiles [f] (s.tables.setSlot (t.1, fd) none))) := by
  have hpos : 0 < ((s.tables.setSlot (t.1, fd) none).file f).ref :=
    h.objects.books.ref_pos hslot
  obtain ⟨T', r, hclose⟩ := exists_fileclose hpos
  have hclosed := closed_of_fileclose hclose
  have hinodes := inodes_close h hpc (Nat.ne_of_gt hpos) hclose
  have hother : ∀ u, Inside T' (s.pc u) := by
    intro u
    refine (h.inside u).congr fun g hg => ?_
    by_cases hgf : g = f
    · subst hgf
      have hmany : (s.tables.file g).ref ≠ 1 := fun hone => hkeeps hone u hg
      have hused : (T'.file g).ref ≠ 0 := by
        have hcount := hclosed.ref
        simp only [Tables.setSlot] at hcount
        omega
      have htype : (T'.file g).type ≠ .none := by
        rw [hclosed.type hused]
        exact fun htype => absurd ((h.objects.typed g).mpr htype) (Nat.ne_of_gt hpos)
      exact ⟨(fileclose_same hclose htype).1, (fileclose_same hclose htype).2.1⟩
    · rw [hclosed.other g hgf]
      exact ⟨rfl, rfl⟩
  have hobjects := h.objects.close hslot hclose
  cases r with
  | none =>
    rw [show closeFiles [f] (s.tables.setSlot (t.1, fd) none) = some (T', .user) by
      simp [closeFiles, hclose]]
    exact h.enter hobjects hinodes trivial fun u _ => hother u
  | some ip =>
    rw [show closeFiles [f] (s.tables.setSlot (t.1, fd) none) =
      some (T', .closing ip .beginOp (.files [])) by simp [closeFiles, hclose]]
    exact h.enter hobjects hinodes rfl fun u _ => hother u

theorem pins_fileread (hslot : s.tables.ofile (t.1, fd) = some f) : Pins (fileread s t f) := by
  have hpos := h.objects.books.ref_pos hslot
  simp only [fileread]
  split
  · exact h
  · split
    · rename_i htype
      exact h.walk (fun _ => by rw [hpc]; rfl) ⟨htype, rfl⟩
    · rename_i htype
      exact h.walk (fun _ => by rw [hpc]; rfl) htype
    · rename_i htype
      exact absurd ((h.objects.typed f).mpr htype) (Nat.ne_of_gt hpos)

theorem pins_filewrite (hslot : s.tables.ofile (t.1, fd) = some f) : Pins (filewrite s t f) := by
  have hpos := h.objects.books.ref_pos hslot
  simp only [filewrite]
  split
  · exact h
  · split
    · rename_i htype
      exact h.walk (fun _ => by rw [hpc]; rfl) ⟨htype, rfl⟩
    · rename_i htype
      exact h.walk (fun _ => by rw [hpc]; rfl) htype
    · rename_i htype
      exact absurd ((h.objects.typed f).mpr htype) (Nat.ne_of_gt hpos)

end

theorem pins_iput (h : Pins s) {ip : Nat} {next : Next} (hpc : s.pc t = .closing ip .iput next) :
    Pins (s.enter t (s.tables.addRef ip (-1)) (.closing ip .endOp next)) := by
  have hnext : next = .files [] := by
    have hinside := h.inside t
    rw [hpc] at hinside
    exact hinside
  have hfile : (s.tables.addRef ip (-1)).file = s.tables.file := rfl
  have hobjects : Objects (s.tables.addRef ip (-1)) :=
    ⟨h.objects.refs, h.objects.typed, h.objects.pipe, h.objects.ends⟩
  apply h.enter hobjects
  · intro n
    have hinodes := h.inodes n
    by_cases hn : n = ip
    · subst hn
      have hleave : tally (Pc.drops n) (update s.pc t (.closing n .endOp next)) + 1 =
          tally (Pc.drops n) s.pc := tally_leave (by simp [hpc, Pc.drops]) rfl
      simp only [opens, Tables.addRef, update_self] at hinodes ⊢
      omega
    · have hiref : (s.tables.addRef ip (-1)).iref n = s.tables.iref n := by
        simp [Tables.addRef, hn]
      rw [tally_keep (by simp [hpc, Pc.drops, Ne.symm hn]), hiref, opens_congr hfile]
      exact hinodes
  · exact hnext
  · exact fun u _ => (h.inside u).congr fun f _ => ⟨by rw [hfile], by rw [hfile]⟩

theorem pins_go (h : Pins s) (hgo : go s t (s.pc t) = some s') : Pins s' := by
  have hinside := h.inside t
  match hpc : s.pc t with
  | .user => simp [go, hpc] at hgo
  | .closing ip .beginOp next =>
    rw [hpc] at hgo hinside
    cases hgo
    exact h.walk (fun _ => by rw [hpc]; rfl) hinside
  | .closing ip .iput next =>
    rw [hpc] at hgo
    cases hgo
    exact pins_iput h hpc
  | .closing ip .endOp next =>
    rw [hpc] at hgo hinside
    obtain rfl : next = .files [] := hinside
    cases hgo
    exact h.walk (fun _ => by rw [hpc]; rfl) trivial
  | .piperead _ _ | .pipewrite _ _ | .fileread _ | .filewrite _ =>
    rw [hpc] at hgo
    cases hgo
    exact h.walk (fun _ => by rw [hpc]; rfl) trivial
  | .open _ | .opened _ _ _ _ | .openFailed _ | .endOp | .exitCwd _ =>
    rw [hpc] at hinside
    exact hinside.elim

def Act.readWriteClose : Act → Bool
  | .call _ (.read _ _) | .call _ (.write _ _) | .call _ (.close _) | .go _ | .sleep _ => true
  | _ => false

/-- Nobody closes the last descriptor of a file that is being read or written. -/
def keepsUsed (s : State) : Act → Bool
  | .call t (.close n) =>
    (argfd s.tables t.1 n).all fun x =>
      (s.tables.file x.2).ref != 1 || decide (∀ u, (s.pc u).uses ≠ some x.2)
  | _ => true

theorem pins_step {a : Act} (h : Pins s) (hkeeps : keepsUsed s a = true)
    (hcall : a.readWriteClose = true) (hstep : step s a = some s') : Pins s' := by
  obtain ⟨_, hact⟩ := Option.ite_none_right_eq_some.mp hstep
  match a with
  | .call t (.read n ok) =>
    obtain ⟨⟨_, hpc⟩, hread⟩ := Option.ite_none_right_eq_some.mp hact
    simp only [call] at hread
    split at hread
    · cases hread
      exact h
    · rename_i hfd
      split at hread <;> cases hread
      · exact pins_fileread h hpc (argfd_some hfd)
      · exact h
  | .call t (.write n ok) =>
    obtain ⟨⟨_, hpc⟩, hwrite⟩ := Option.ite_none_right_eq_some.mp hact
    simp only [call] at hwrite
    split at hwrite
    · cases hwrite
      exact h
    · rename_i hfd
      split at hwrite <;> cases hwrite
      · exact pins_filewrite h hpc (argfd_some hfd)
      · exact h
  | .call t (.close n) =>
    obtain ⟨⟨_, hpc⟩, hclose⟩ := Option.ite_none_right_eq_some.mp hact
    simp only [call] at hclose
    split at hclose
    · cases hclose
      exact h
    · rename_i hfd
      cases hclose
      apply pins_close h hpc (argfd_some hfd)
      intro hone u
      simp only [keepsUsed, hfd, Option.all_some, hone, bne_self_eq_false, Bool.false_or,
        decide_eq_true_eq] at hkeeps
      exact hkeeps u
  | .go t =>
    obtain ⟨_, hgo⟩ := Option.ite_none_right_eq_some.mp hact
    exact pins_go h hgo
  | .sleep t =>
    obtain ⟨_, rfl⟩ := taken hact
    exact ⟨h.panic, h.objects, h.inodes, h.inside⟩
  | .call _ (.open _) | .call _ (.dup _) | .call _ (.pipe _) | .call _ (.fork _) | .call _ .exit
  | .call _ (.kthreadCreate _) | .lookup _ _ _ | .wait _ => cases hcall

/-- What the threads inside `fileread` and `filewrite` work on is there. -/
structure Pinned (s : State) : Prop where
  pipe : ∀ t f q, s.pc t = .piperead f q ∨ s.pc t = .pipewrite f q →
    (s.tables.pipe q).allocated = true
  inode : ∀ t f, s.pc t = .fileread f ∨ s.pc t = .filewrite f →
    0 < s.tables.iref (s.tables.file f).ip

theorem Pins.pinned (h : Pins s) : Pinned s where
  pipe := fun t f q hpc => by
    have hinside : (s.tables.file f).type = .pipe ∧ (s.tables.file f).pipe = q := by
      have hinside := h.inside t
      rcases hpc with hpc | hpc <;> rw [hpc] at hinside <;> exact hinside
    obtain ⟨htype, rfl⟩ := hinside
    exact (h.objects.pipe f htype).1
  inode := fun t f hpc => by
    have htype : (s.tables.file f).type = .inode := by
      have hinside := h.inside t
      rcases hpc with hpc | hpc <;> rw [hpc] at hinside <;> exact hinside
    have hused : (s.tables.file f).ref ≠ 0 := by
      intro hzero
      have hnone := (h.objects.typed f).mp hzero
      rw [htype] at hnone
      cases hnone
    have hshut := opens_shut_inode hused htype
    have hinodes := h.inodes (s.tables.file f).ip
    omega

/-- From any state with no call in progress: while a thread is inside `piperead`
or `pipewrite` the page of the pipe is not freed, and while it is inside
`fileread` or `filewrite` on an inode the inode has a reference, provided that no
`close` takes the last descriptor of a file in such a call. -/
theorem operations_pin_objects (start final : State) (labels : List Act) (hready : Ready start)
    (hcalls : ∀ a ∈ labels, a.readWriteClose = true)
    (hkeeps : Meets step (fun s a => keepsUsed s a = true) start labels)
    (hrun : run step start labels = some final) : Pinned final := by
  have hdomain : Meets step (fun _ a => a.readWriteClose = true) start labels :=
    meets_of_forall (fun a ha _ => hcalls a ha) start
  have hstep : ∀ s a next, Pins s → (keepsUsed s a = true ∧ a.readWriteClose = true) →
      step s a = some next → Pins next :=
    fun _ _ _ h hguard hstep => pins_step h hguard.1 hguard.2 hstep
  exact (run_invariant hstep hready.pins (hkeeps.and hdomain) hrun).pinned

def file0 : FileId := ⟨0, Nat.succ_pos 99⟩
def file1 : FileId := ⟨1, Nat.succ_lt_succ (Nat.succ_pos 98)⟩

def fd0 : Fd := ⟨0, show 0 < nofile from Nat.succ_pos 15⟩
def fd1 : Fd := ⟨1, show 1 < nofile from Nat.succ_lt_succ (Nat.succ_pos 14)⟩
def fd2 : Fd := ⟨2, Nat.succ_lt_succ (Nat.succ_lt_succ (Nat.succ_pos 13))⟩

/-- A file and the two ends of a pipe, without descriptors. -/
def threeFiles : Tables where
  file := fun f =>
    if f = file0 then ⟨.inode, 1, true, true, 0, 7⟩
    else if f = file1 then ⟨.pipe, 1, true, false, 3, 0⟩
    else if f = file2 then ⟨.pipe, 1, false, true, 3, 0⟩
    else ⟨.none, 0, false, false, 0, 0⟩
  ofile := fun _ => none
  pipe := fun q => if q = 3 then ⟨true, true, true⟩ else ⟨false, false, false⟩
  iref := fun ip => if ip = 7 then 1 else 0

/-- Two threads of `init` share them as descriptors 0, 1 and 2. -/
def threeOpen : State :=
  { boot with
    tables := ((threeFiles.setSlot (initproc, fd0) (some file0)).setSlot (initproc, fd1)
      (some file1)).setSlot (initproc, fd2) (some file2)
    live := fun t => t = init0 ∨ t = init1 }

theorem ready_threeOpen : Ready threeOpen where
  panic := rfl
  pc := fun _ => rfl
  objects := by
    have hbare : Books threeFiles fun f => -((threeFiles.file f).ref : Int) := by
      intro f
      have hnone : slots threeFiles f = 0 := tally_eq_zero fun _ => rfl
      rw [hnone]
      exact Int.add_right_neg _
    have hnone1 : (threeFiles.setSlot (initproc, fd0) (some file0)).ofile (initproc, fd1) =
      none := by decide
    have hnone2 : ((threeFiles.setSlot (initproc, fd0) (some file0)).setSlot (initproc, fd1)
        (some file1)).ofile (initproc, fd2) = none := by
      decide
    have hstored : Books threeOpen.tables fun f => -((threeFiles.file f).ref : Int) +
        single file0 f + single file1 f + single file2 f :=
      ((hbare.store rfl).store hnone1).store hnone2
    have hdue : ∀ f, (0 : Int) = -((threeFiles.file f).ref : Int) + single file0 f +
        single file1 f + single file2 f := by
      decide
    refine ⟨fun f => ?_, by decide, by decide, by decide +kernel⟩
    have hf := hstored.congr hdue f
    simp only [Int.add_zero] at hf
    exact Int.ofNat.inj hf
  inodes := fun ip => by
    have hall : ∀ f, (threeFiles.file f).type = .inode → (threeFiles.file f).ip = 7 := by decide
    by_cases hip : ip = 7
    · subst hip
      decide +kernel
    · have hnone : opens threeOpen.tables ip = 0 := by
        apply tally_eq_zero
        intro f
        by_cases htype : (threeFiles.file f).type = .inode
        · have hne : (threeFiles.file f).ip ≠ ip := by
            rw [hall f htype]
            exact Ne.symm hip
          simp [threeOpen, Tables.setSlot, hne]
        · simp [threeOpen, Tables.setSlot, htype]
      have hiref : threeOpen.tables.iref ip = 0 := if_neg hip
      rw [hnone, hiref]
      rfl

/-- A read of the pipe sleeps; the other thread reads and closes the file and
closes the other end of the pipe. -/
def otherClosed : List Act :=
  [.call init0 (.read 1 true), .sleep init0, .call init1 (.read 0 true), .sleep init1, .go init1,
    .call init1 (.close 0), .sleep init1, .go init1, .go init1, .go init1, .call init1 (.close 2)]

theorem operations_pin_objects_other_closed : ∃ final, run step threeOpen otherClosed = some final ∧
      final.pc init0 = .piperead file1 3 ∧ (final.tables.pipe 3).writeopen = false ∧
      Pinned final := by
  obtain ⟨final, hrun, hpc, hopen⟩ : ∃ final, run step threeOpen otherClosed = some final ∧
      final.pc init0 = .piperead file1 3 ∧ (final.tables.pipe 3).writeopen = false := by
    decide +kernel
  exact ⟨final, hrun, hpc, hopen, operations_pin_objects threeOpen final otherClosed
    ready_threeOpen (by decide) (by decide +kernel) hrun⟩

/-- A thread sleeps in `piperead` while the other closes both ends, or in
`fileread` while the other closes the file. -/
theorem close_frees_object_in_use : Ready threeOpen ∧
      (run step threeOpen [.call init0 (.read 1 true), .sleep init0, .call init1 (.close 1),
        .call init1 (.close 2)]).map (fun s => (s.pc init0, (s.tables.pipe 3).allocated)) =
        some (.piperead file1 3, false) ∧
      (run step threeOpen [.call init0 (.read 0 true), .sleep init0, .call init1 (.close 0),
        .go init1, .go init1]).map (fun s => (s.pc init0, s.tables.iref 7)) =
        some (.fileread file0, 0) := by
  exact ⟨ready_threeOpen, by decide +kernel⟩

end Xv6.Files
