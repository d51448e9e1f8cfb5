import Mathlib.Data.List.TakeWhile
import Xv6.Fs.Directory

/-! Paths: `skipelem` and `namex` of `fs.c`, with the locks of the inodes, against the
walk from directory to directory along the components of the path. -/
namespace Xv6.Fs
open Command
open Function (update update_of_ne update_self)

abbrev rootino : Nat := 1
abbrev slash : UInt8 := 47

/-- The files and the flag `I_BUSY` of each inode. An entry of the cache without
references is not locked. -/
structure Kernel where
  fs : State
  busy : Nat → Bool

namespace Kernel

variable {α : Type} (sb : Superblock)

/-- A call that takes no lock. -/
def files (x : Prog State α) : Prog Kernel α :=
  ⟨fun k => (x.run k.fs).map fun result => (result.1, { k with fs := result.2 })⟩

/-- The only thread would wait for ever for a lock that it holds. -/
def ilock (ip : Nat) : Prog Kernel Unit :=
  update fun k =>
    if k.busy ip then none
    else (Fs.ilock k.fs ip).map fun fs => ⟨fs, update k.busy ip true⟩

def iunlock (ip : Nat) : Prog Kernel Unit :=
  update fun k =>
    if k.busy ip = false ∨ (k.fs.icache ip).ref < 1 then none
    else some { k with busy := update k.busy ip false }

/-- The last reference to an inode without links must not be locked. -/
def iput (ip : Nat) : Prog Kernel Unit :=
  update fun k =>
    if (k.fs.icache ip).ref = 1 ∧ (k.fs.icache ip).valid ∧ (k.fs.icache ip).data.nlink = 0 ∧
        k.busy ip then none
    else (Fs.iput sb k.fs ip).map fun fs => { k with fs := fs }

def iunlockput (ip : Nat) : Prog Kernel Unit := do
  iunlock ip
  iput sb ip

end Kernel

/-- The next element of the path and what follows it. -/
def skipelem (path : List UInt8) : Option (Name × List UInt8) :=
  let path := path.dropWhile fun c => c = slash
  if path = [] then none
  else
    some ((path.takeWhile fun c => c ≠ slash).take dirsiz,
      (path.dropWhile fun c => c ≠ slash).dropWhile fun c => c = slash)

section

variable (sb : Superblock)

/-- The loop of `namex`; the fuel is more than the length of the path. -/
def namexLoop (nameiparent : Bool) :
    Nat → Nat → List UInt8 → Prog Kernel (Option (Nat × Name))
  | 0, _, _ => fail
  | fuel + 1, ip, path =>
    match skipelem path with
    | none =>
      if nameiparent then do
        Kernel.iput sb ip
        return none
      else return some (ip, [])
    | some (name, rest) => do
      Kernel.ilock ip
      let inode ← Kernel.files (inodeOf ip)
      if inode.type ≠ .dir then
        Kernel.iunlockput sb ip
        return none
      else if nameiparent ∧ rest = [] then
        Kernel.iunlock ip
        return some (ip, name)
      else
        let next ← Kernel.files (dirlookup sb ip name)
        match next with
        | none => do
          Kernel.iunlockput sb ip
          return none
        | some (next, _) => do
          Kernel.iunlockput sb ip
          namexLoop nameiparent fuel next rest

/-- `namex(path, nameiparent, name)` of a process in directory `cwd`. -/
def namex (cwd : Nat) (path : List UInt8) (nameiparent : Bool) :
    Prog Kernel (Option (Nat × Name)) :=
  if path.headD 0 = slash then do
    Kernel.files (getInode rootino)
    namexLoop sb nameiparent (path.length + 1) rootino path
  else do
    Kernel.files (update fun s => some (idup s cwd))
    namexLoop sb nameiparent (path.length + 1) cwd path

def namei (cwd : Nat) (path : List UInt8) : Prog Kernel (Option Nat) := do
  let result ← namex sb cwd path false
  return result.map Prod.fst

def nameiparent (cwd : Nat) (path : List UInt8) : Prog Kernel (Option (Nat × Name)) :=
  namex sb cwd path true

end

/-- The maximal parts of a path without a slash, each cut to `DIRSIZ` bytes. -/
def components (path : List UInt8) : List Name :=
  ((path.splitOnP fun c => c = slash).filter fun part => part ≠ []).map (List.take dirsiz)

section

variable {path rest : List UInt8} {name : Name}

theorem components_nil : components [] = [] := by
  simp [components, List.splitOnP_nil]

theorem components_slash (path : List UInt8) : components (slash :: path) = components path := by
  have hsplit : (slash :: path).splitOnP (fun c => c = slash) =
      [] :: path.splitOnP fun c => c = slash :=
    List.splitOnP_append_cons_of_forall_mem
      (show ∀ c ∈ ([] : List UInt8), decide (c = slash) = false from
        fun c hc => absurd hc List.not_mem_nil) slash (decide_eq_true rfl) path
  rw [components, hsplit]
  simp [components]

theorem components_dropWhile (path : List UInt8) :
    components (path.dropWhile fun c => c = slash) = components path := by
  induction path with
  | nil => rfl
  | cons c path ih =>
    rw [List.dropWhile_cons]
    split
    · rename_i hc
      rw [ih, of_decide_eq_true hc, components_slash]
    · rfl

theorem dropWhile_part (path : List UInt8) :
    (path.dropWhile fun c => c ≠ slash) = [] ∨
      ∃ more, (path.dropWhile fun c => c ≠ slash) = slash :: more := by
  cases hdrop : path.dropWhile fun c => c ≠ slash with
  | nil => exact Or.inl rfl
  | cons c more =>
    have hhead := List.head?_dropWhile_not (fun c => decide (c ≠ slash)) path
    rw [hdrop, List.head?_cons] at hhead
    refine Or.inr ⟨more, ?_⟩
    rw [not_not.mp (of_decide_eq_false hhead)]

theorem components_cons {c : UInt8} {more : List UInt8} (hc : c ≠ slash) :
    components (c :: more) = ((c :: more).takeWhile fun c => c ≠ slash).take dirsiz ::
      components ((c :: more).dropWhile fun c => c ≠ slash) := by
  have hpart : ((c :: more).takeWhile fun c => c ≠ slash) ≠ [] := by
    rw [List.takeWhile_cons, if_pos (decide_eq_true hc)]
    exact List.cons_ne_nil _ _
  have hclean : ∀ d ∈ (c :: more).takeWhile fun c => c ≠ slash, decide (d = slash) = false := by
    intro d hd
    have hne := List.mem_takeWhile_imp hd
    exact decide_eq_false (of_decide_eq_true hne)
  have happend := List.takeWhile_append_dropWhile (p := fun c => decide (c ≠ slash))
    (l := c :: more)
  generalize (c :: more).takeWhile (fun c => c ≠ slash) = part at *
  rcases dropWhile_part (c :: more) with hnil | ⟨after, hafter⟩
  · rw [hnil, List.append_nil] at happend
    rw [hnil, ← happend, components, List.splitOnP_eq_singleton hclean, components_nil]
    simp [hpart]
  · have hsplit : (part ++ slash :: after).splitOnP (fun c => c = slash) =
        part :: after.splitOnP fun c => c = slash :=
      List.splitOnP_append_cons_of_forall_mem hclean slash (decide_eq_true rfl) after
    rw [hafter] at happend ⊢
    rw [← happend, components_slash, components, hsplit]
    simp [hpart, components]

theorem skipelem_eq_none (h : skipelem path = none) : components path = [] := by
  unfold skipelem at h
  dsimp only at h
  split at h
  · rename_i hnil
    rw [← components_dropWhile, hnil, components_nil]
  · cases h

theorem dropWhile_slash (path : List UInt8) :
    (path.dropWhile fun c => c = slash) = [] ∨
      ∃ c more, (path.dropWhile fun c => c = slash) = c :: more ∧ c ≠ slash := by
  cases hdrop : path.dropWhile fun c => c = slash with
  | nil => exact Or.inl rfl
  | cons c more =>
    refine Or.inr ⟨c, more, rfl, fun hc => ?_⟩
    have hhead := List.head?_dropWhile_not (fun c => decide (c = slash)) path
    rw [hdrop, List.head?_cons] at hhead
    simp [hc] at hhead

theorem skipelem_eq_some (h : skipelem path = some (name, rest)) :
    components path = name :: components rest ∧ (rest = [] ↔ components rest = []) ∧
      rest.length < path.length ∧ (∀ c, c ∈ name ∨ c ∈ rest → c ∈ path) ∧
      name.length ≤ dirsiz := by
  unfold skipelem at h
  dsimp only at h
  split at h
  · cases h
  · rename_i hne
    obtain ⟨rfl, rfl⟩ := Prod.mk.inj (Option.some.inj h)
    obtain ⟨c, more, hdrop, hc⟩ := (dropWhile_slash path).resolve_left hne
    have hsub : (c :: more).Sublist path := hdrop ▸ List.dropWhile_sublist _
    rw [hdrop]
    refine ⟨?_, ⟨fun hnil => by rw [hnil, components_nil], fun hnil => ?_⟩, ?_, ?_,
      List.length_take_le ..⟩
    · rw [← components_dropWhile path, hdrop, components_cons hc, components_dropWhile]
    · rcases dropWhile_slash ((c :: more).dropWhile fun c => c ≠ slash) with hdone | hmore
      · exact hdone
      · obtain ⟨d, after, hafter, hd⟩ := hmore
        rw [hafter, components_cons hd] at hnil
        cases hnil
    · have hlength := (List.dropWhile_sublist (fun c => decide (c = slash))
        (l := (c :: more).dropWhile fun c => c ≠ slash)).length_le
      rw [List.dropWhile_cons, if_pos (decide_eq_true hc)] at hlength ⊢
      have hlength' := (List.dropWhile_sublist (fun c => decide (c ≠ slash)) (l := more)).length_le
      have hpath := hsub.length_le
      rw [List.length_cons] at hpath
      omega
    · rintro d (hd | hd)
      · exact hsub.subset ((List.takeWhile_sublist _).subset (List.mem_of_mem_take hd))
      · exact hsub.subset ((List.dropWhile_sublist _).subset ((List.dropWhile_sublist _).subset hd))

end

/-- From inode to inode along the names. With `parent` the last name is not looked up. -/
def State.walk (s : State) (parent : Bool) : Nat → List Name → Option (Nat × Name)
  | ip, [] => if parent then none else some (ip, [])
  | ip, name :: rest =>
    if (s.inode ip).type ≠ .dir then none
    else if parent ∧ rest = [] then some (ip, name)
    else
      match s.binding ip name with
      | none => none
      | some (next, _) => s.walk parent next rest

/-- With a reference to `ip` besides, there is an entry of the cache for `next`. -/
def State.Admits (s : State) (ip next : Nat) : Prop :=
  next ∈ insert ip s.icache.live ∨ (insert ip s.icache.live).card < ninode

instance (s : State) (ip next : Nat) : Decidable (s.Admits ip next) :=
  inferInstanceAs (Decidable (_ ∨ _))

/-- The cache has an entry for every inode on the walk. -/
def State.Walkable (s : State) (parent : Bool) : Nat → List Name → Prop
  | _, [] => True
  | ip, name :: rest =>
    if (s.inode ip).type ≠ .dir ∨ parent ∧ rest = [] then True
    else
      match s.binding ip name with
      | none => True
      | some (next, _) => s.Admits ip next ∧ s.Walkable parent next rest

instance walkableDecidable (s : State) (parent : Bool) :
    (ip : Nat) → (names : List Name) → Decidable (s.Walkable parent ip names)
  | _, [] => .isTrue trivial
  | ip, name :: rest => by
    unfold State.Walkable
    cases s.binding ip name with
    | none => exact inferInstance
    | some found =>
      have := walkableDecidable s parent found.1 rest
      exact inferInstance

/-- An inode that `ilock` can lock and that `iput` after `iget` does not free. -/
def Reached (k : Kernel) (ip : Nat) : Prop :=
  (k.fs.inode ip).type ≠ .free ∧ ((k.fs.inode ip).nlink ≠ 0 ∨ 0 < (k.fs.icache ip).ref)

/-- A tree of directories with no call in progress. -/
structure Tree (sb : Superblock) (k : Kernel) : Prop where
  safe : Safe sb k.fs
  synced : Synced k.fs
  whole : ∀ dp, (k.fs.inode dp).type = .dir → direntSize ∣ (k.fs.inode dp).size
  named : ∀ dp name inum off, (k.fs.inode dp).type = .dir →
    k.fs.binding dp name = some (inum, off) → Reached k inum
  unlocked : ∀ ip, k.busy ip = false

/-- The files are those of `k`, no inode is locked, and there is one more reference, to
`held`. -/
structure Holds (sb : Superblock) (k : Kernel) (held : Option Nat) (t : Kernel) : Prop where
  same : SameFiles k.fs t.fs
  safe : Safe sb t.fs
  synced : Synced t.fs
  ref : ∀ x, (t.fs.icache x).ref = (k.fs.icache x).ref + if held = some x then 1 else 0
  unlocked : ∀ x, t.busy x = false

/-- `ip` is locked, and there may be a second reference, to `next`. -/
structure Inside (sb : Superblock) (k : Kernel) (ip : Nat) (next : Option Nat) (t : Kernel) :
    Prop where
  same : SameFiles k.fs t.fs
  safe : Safe sb t.fs
  synced : Synced t.fs
  locked : t.fs.Locked ip
  ref : ∀ x, (t.fs.icache x).ref =
    (k.fs.icache x).ref + (if x = ip then 1 else 0) + if next = some x then 1 else 0
  busy : ∀ x, t.busy x = decide (x = ip)

section

variable {k t : Kernel} {sb : Superblock} {ip : Nat} {next : Option Nat}

theorem run_files {α : Type} {x : Prog State α} {a : α} {s : State}
    (h : x.run t.fs = some (a, s)) : (Kernel.files x).run t = some (a, { t with fs := s }) := by
  show (x.run t.fs).map _ = _
  rw [h, Option.map_some]

theorem run_files_none {α : Type} {x : Prog State α} (h : x.run t.fs = none) :
    (Kernel.files x).run t = none := by
  show (x.run t.fs).map _ = _
  rw [h, Option.map_none]

theorem held_some (ip x : Nat) :
    (if some ip = some x then 1 else 0) = if x = ip then 1 else 0 := by
  by_cases hx : x = ip
  · rw [if_pos hx, hx, if_pos rfl]
  · rw [if_neg hx, if_neg fun heq => hx (Option.some.inj heq).symm]

theorem Holds.ilock (h : Holds sb k (some ip) t) (hreached : Reached k ip) :
    ∃ t', (Kernel.ilock ip).run t = some ((), t') ∧ Inside sb k ip none t' := by
  have href : 0 < (t.fs.icache ip).ref := by
    rw [h.ref, if_pos rfl]
    omega
  have htype : (t.fs.inode ip).type ≠ .free := by
    rw [h.same.inode]
    exact hreached.1
  obtain ⟨s, hlock, hsame, hsafe, hsync, hlocked, hrefs, _⟩ :=
    ilock_total h.safe h.synced href htype
  have hrun : (if t.busy ip then none else (Fs.ilock t.fs ip).map fun fs =>
      (⟨fs, update t.busy ip true⟩ : Kernel)) =
      some ⟨s, update t.busy ip true⟩ := by
    rw [h.unlocked, if_neg Bool.false_ne_true, hlock, Option.map_some]
  refine ⟨_, run_update hrun, h.same.trans hsame, hsafe, hsync, hlocked, fun x => ?_, fun x => ?_⟩
  · dsimp only
    rw [hrefs, h.ref, if_neg (Option.some_ne_none x).symm, Nat.add_zero, held_some]
  · dsimp only
    by_cases hx : x = ip
    · rw [hx, update_self, decide_eq_true rfl]
    · rw [update_of_ne hx, h.unlocked, decide_eq_false hx]

theorem Inside.iunlock (h : Inside sb k ip next t) :
    ∃ t', (Kernel.iunlock ip).run t = some ((), t') ∧ t'.fs = t.fs ∧ ∀ x, t'.busy x = false := by
  have hrun : (if t.busy ip = false ∨ (t.fs.icache ip).ref < 1 then none
      else some { t with busy := update t.busy ip false }) =
      some { t with busy := update t.busy ip false } := by
    refine if_neg ?_
    rintro (hfree | href)
    · rw [h.busy, decide_eq_true rfl] at hfree
      cases hfree
    · have := h.locked.1
      omega
  refine ⟨_, run_update hrun, rfl, fun x => ?_⟩
  by_cases hx : x = ip
  · rw [hx]
    exact update_self ..
  · dsimp only
    rw [update_of_ne hx, h.busy, decide_eq_false hx]

theorem iput_reached {t' : Kernel} (hsame : SameFiles k.fs t.fs) (hsafe : Safe sb t.fs)
    (hsync : Synced t.fs) (hreached : Reached k ip)
    (href : ∀ x, (t.fs.icache x).ref =
      (k.fs.icache x).ref + (if x = ip then 1 else 0) + if next = some x then 1 else 0)
    (hfs : t'.fs = t.fs) (hbusy : ∀ x, t'.busy x = false) :
    ∃ t'', (Kernel.iput sb ip).run t' = some ((), t'') ∧ Holds sb k next t'' := by
  have hself := href ip
  rw [if_pos rfl] at hself
  obtain ⟨s, hput, hsame', hsafe', hsync', _, hrefs⟩ := iput_total hsafe hsync
    (show 0 < (t.fs.icache ip).ref by omega) fun hone => by
      rw [hsame.inode]
      exact hreached.2.resolve_right (by omega)
  have hrun : (if (t'.fs.icache ip).ref = 1 ∧ (t'.fs.icache ip).valid ∧
        (t'.fs.icache ip).data.nlink = 0 ∧ t'.busy ip then none
      else (Fs.iput sb t'.fs ip).map fun fs => { t' with fs := fs }) =
      some { t' with fs := s } := by
    rw [if_neg (by rw [hbusy]; exact fun h => Bool.false_ne_true h.2.2.2), hfs, hput,
      Option.map_some]
  refine ⟨_, run_update hrun, hsame.trans hsame', hsafe', hsync', fun x => ?_, hbusy⟩
  have hx := hrefs x
  have hx' := href x
  dsimp only
  split at hx
  · rename_i heq
    rw [if_pos heq] at hx'
    omega
  · rename_i heq
    rw [if_neg heq] at hx'
    omega

theorem Inside.iunlockput (h : Inside sb k ip next t) (hreached : Reached k ip) :
    ∃ t', (Kernel.iunlockput sb ip).run t = some ((), t') ∧ Holds sb k next t' := by
  obtain ⟨t1, hunlock, hfs, hbusy⟩ := h.iunlock
  obtain ⟨t2, hput, hholds⟩ :=
    iput_reached h.same h.safe h.synced hreached h.ref hfs hbusy
  exact ⟨t2, by rw [Kernel.iunlockput, run_bind hunlock, hput], hholds⟩

theorem Holds.iput (h : Holds sb k (some ip) t) (hreached : Reached k ip) :
    ∃ t', (Kernel.iput sb ip).run t = some ((), t') ∧ Holds sb k none t' := by
  refine iput_reached h.same h.safe h.synced hreached (fun x => ?_) rfl h.unlocked
  rw [h.ref, if_neg (Option.some_ne_none x).symm, Nat.add_zero, held_some]

theorem Inside.listing (h : Inside sb k ip next t) (htree : Tree sb k)
    (hdir : (k.fs.inode ip).type = .dir) : Listing sb t.fs ip :=
  ⟨h.safe, h.locked, by rw [h.same.inode]; exact hdir,
    by rw [h.same.inode]; exact htree.whole ip hdir⟩

theorem Inside.addRef (h : Inside sb k ip none t) (inum : Nat) :
    Inside sb k ip (some inum) { t with fs := t.fs.addRef inum } := by
  refine ⟨h.same.trans (addRef_same t.fs inum), addRef_safe h.safe inum,
    addRef_synced h.synced inum, (addRef_locked t.fs inum ip).mpr h.locked, fun x => ?_, h.busy⟩
  dsimp only
  rw [addRef_ref, h.ref, if_neg (Option.some_ne_none x).symm, Nat.add_zero, held_some]

theorem Inside.cachable (h : Inside sb k ip none t) (inum : Nat) :
    Cachable t.fs inum ↔ k.fs.Admits ip inum := by
  have hlive : t.fs.icache.live = insert ip k.fs.icache.live := by
    ext x
    rw [Finset.mem_insert, Icache.mem_live, Icache.mem_live, h.ref,
      if_neg (Option.some_ne_none x).symm]
    split
    · omega
    · omega
  rw [Cachable, State.Admits, ← hlive, Icache.mem_live]

theorem cut_of_clean {name : Name} (hzero : 0 ∉ name) (hlength : name.length ≤ dirsiz) :
    cut name = name := by
  have hwhole : (name.takeWhile fun c => c ≠ 0) = name := by
    rw [List.takeWhile_eq_self_iff]
    intro c hc
    refine decide_eq_true ?_
    rintro rfl
    exact hzero hc
  rw [cut, hwhole, List.take_of_length_le hlength]

theorem namexLoop_walk (parent : Bool) {fuel : Nat} {path : List UInt8} (htree : Tree sb k)
    (hfuel : path.length < fuel) (hpath : 0 ∉ path) (hreached : Reached k ip)
    (h : Holds sb k (some ip) t) :
    (k.fs.Walkable parent ip (components path) →
      ∃ t', (namexLoop sb parent fuel ip path).run t =
          some (k.fs.walk parent ip (components path), t') ∧
        Holds sb k ((k.fs.walk parent ip (components path)).map Prod.fst) t') ∧
    (¬ k.fs.Walkable parent ip (components path) →
      (namexLoop sb parent fuel ip path).run t = none) := by
  induction fuel generalizing ip path t with
  | zero => exact absurd hfuel (Nat.not_lt_zero _)
  | succ fuel ih =>
    unfold namexLoop
    cases hskip : skipelem path with
    | none =>
      rw [skipelem_eq_none hskip]
      refine ⟨fun _ => ?_, fun hnot => absurd trivial hnot⟩
      dsimp only [State.walk]
      cases parent with
      | true =>
        obtain ⟨t', hput, hholds⟩ := h.iput hreached
        exact ⟨t', run_bind hput, hholds⟩
      | false => exact ⟨t, rfl, h⟩
    | some element =>
      obtain ⟨name, rest⟩ := element
      obtain ⟨hcomponents, hlast, hlength, hmem, hname⟩ := skipelem_eq_some hskip
      have hcut := cut_of_clean (fun hzero => hpath (hmem 0 (Or.inl hzero))) hname
      obtain ⟨t1, hlock, hin⟩ := h.ilock hreached
      have hinode := run_files (@run_inodeOf t1.fs ip)
      have hdata : (t1.fs.icache ip).data = k.fs.inode ip := by
        rw [← inode_of_locked hin.locked, hin.same.inode]
      rw [hcomponents]
      dsimp only [State.walk, State.Walkable]
      rw [run_bind hlock, run_bind hinode, hdata]
      by_cases hdir : (k.fs.inode ip).type = .dir
      · have hnot : ¬ (k.fs.inode ip).type ≠ .dir := not_not.mpr hdir
        rw [if_neg hnot, if_neg hnot]
        by_cases hparent : parent = true ∧ rest = []
        · have hparent' := And.intro hparent.1 (hlast.mp hparent.2)
          rw [if_pos hparent, if_pos hparent', if_pos (Or.inr hparent')]
          refine ⟨fun _ => ?_, fun hnot => absurd trivial hnot⟩
          obtain ⟨t2, hunlock, hfs, hbusy⟩ := hin.iunlock
          refine ⟨t2, run_bind hunlock, ⟨by rw [hfs]; exact hin.same, by rw [hfs]; exact hin.safe,
            by rw [hfs]; exact hin.synced, fun x => ?_, hbusy⟩⟩
          rw [hfs, hin.ref, if_neg (Option.some_ne_none x).symm, Nat.add_zero, Option.map_some,
            held_some]
        · have hparent' : ¬ (parent = true ∧ components rest = []) :=
            fun hp => hparent ⟨hp.1, hlast.mpr hp.2⟩
          rw [if_neg hparent, if_neg hparent', if_neg (not_or.mpr ⟨hnot, hparent'⟩)]
          have hlookup := (hin.listing htree hdir).dirlookup name
          rw [hcut, hin.same.binding] at hlookup
          cases hbinding : k.fs.binding ip name with
          | none =>
            rw [hbinding] at hlookup
            refine ⟨fun _ => ?_, fun hnot => absurd trivial hnot⟩
            obtain ⟨t2, hput, hholds⟩ := hin.iunlockput hreached
            exact ⟨t2, (run_bind (run_files hlookup)).trans (run_bind hput), hholds⟩
          | some found =>
            obtain ⟨inum, off⟩ := found
            rw [hbinding] at hlookup
            dsimp only at hlookup
            by_cases hadmits : k.fs.Admits ip inum
            · rw [iget_eq, if_pos ((hin.cachable inum).mpr hadmits), Option.map_some] at hlookup
              obtain ⟨t2, hput, hholds⟩ := (hin.addRef inum).iunlockput hreached
              have hrun := ih (by omega) (fun hzero => hpath (hmem 0 (Or.inr hzero)))
                (htree.named ip name inum off hdir hbinding) hholds
              rw [run_bind (run_files hlookup)]
              dsimp only
              rw [run_bind hput]
              exact ⟨fun hwalk => hrun.1 hwalk.2, fun hnot => hrun.2 fun hwalk =>
                hnot ⟨hadmits, hwalk⟩⟩
            · rw [iget_eq, if_neg (mt (hin.cachable inum).mp hadmits), Option.map_none] at hlookup
              exact ⟨fun hwalk => absurd hwalk.1 hadmits,
                fun _ => run_bind_none (run_files_none hlookup)⟩
      · rw [if_pos hdir, if_pos hdir, if_pos (Or.inl hdir)]
        refine ⟨fun _ => ?_, fun hnot => absurd trivial hnot⟩
        obtain ⟨t2, hput, hholds⟩ := hin.iunlockput hreached
        exact ⟨t2, run_bind hput, hholds⟩

end

/-- The inode at the end of the names, each looked up in a directory. -/
def State.resolve (s : State) : Nat → List Name → Option Nat
  | ip, [] => some ip
  | ip, name :: rest =>
    if (s.inode ip).type = .dir then
      (s.binding ip name).bind fun found => s.resolve found.1 rest
    else none

/-- The directory for the last of the names, and that name. -/
def State.resolveParent (s : State) (ip : Nat) (names : List Name) : Option (Nat × Name) :=
  names.getLast?.bind fun last =>
    (s.resolve ip names.dropLast).bind fun dp =>
      if (s.inode dp).type = .dir then some (dp, last) else none

section

variable {s : State} {ip : Nat} {names : List Name}

theorem walk_false : s.walk false ip names = (s.resolve ip names).map fun ip => (ip, []) := by
  induction names generalizing ip with
  | nil => rfl
  | cons name rest ih =>
    rw [State.walk, State.resolve]
    by_cases hdir : (s.inode ip).type = .dir
    · rw [if_neg (not_not.mpr hdir), if_neg (fun h => Bool.false_ne_true h.1), if_pos hdir]
      cases s.binding ip name with
      | none => rfl
      | some found => exact ih
    · rw [if_pos hdir, if_neg hdir]
      rfl

theorem walk_true : s.walk true ip names = s.resolveParent ip names := by
  induction names generalizing ip with
  | nil => rfl
  | cons name rest ih =>
    rw [State.walk]
    cases rest with
    | nil =>
      show _ = if (s.inode ip).type = .dir then some (ip, name) else none
      by_cases hdir : (s.inode ip).type = .dir
      · rw [if_neg (not_not.mpr hdir), if_pos ⟨rfl, rfl⟩, if_pos hdir]
      · rw [if_pos hdir, if_neg hdir]
    | cons second rest =>
      rw [State.resolveParent, List.getLast?_cons_cons, List.dropLast_cons_cons, State.resolve]
      by_cases hdir : (s.inode ip).type = .dir
      · rw [if_neg (not_not.mpr hdir), if_neg (fun h => List.cons_ne_nil _ _ h.2), if_pos hdir]
        cases s.binding ip name with
        | none =>
          cases (second :: rest).getLast? with
          | none | some last => rfl
        | some found => exact ih
      · rw [if_pos hdir, if_neg hdir]
        cases (second :: rest).getLast? with
        | none | some last => rfl

end

/-- The cache has an entry for the root, if the path starts there, and for every inode on
the walk. -/
def Kernel.Finds (k : Kernel) (cwd : Nat) (path : List UInt8) (parent : Bool) : Prop :=
  if path.headD 0 = slash then
    Cachable k.fs rootino ∧ k.fs.Walkable parent rootino (components path)
  else k.fs.Walkable parent cwd (components path)

instance (k : Kernel) (cwd : Nat) (path : List UInt8) (parent : Bool) :
    Decidable (k.Finds cwd path parent) := by
  unfold Kernel.Finds
  exact inferInstance

section

variable {k : Kernel} {sb : Superblock} {cwd : Nat} {path : List UInt8}

theorem Tree.holds (htree : Tree sb k) (ip : Nat) :
    Holds sb k (some ip) { k with fs := k.fs.addRef ip } := by
  refine ⟨addRef_same k.fs ip, addRef_safe htree.safe ip, addRef_synced htree.synced ip,
    fun x => ?_, htree.unlocked⟩
  dsimp only
  rw [addRef_ref, held_some]

theorem namex_walk (htree : Tree sb k) (hroot : Reached k rootino) (hcwd : Reached k cwd)
    (href : 0 < (k.fs.icache cwd).ref) (hpath : 0 ∉ path) (parent : Bool) :
    (k.Finds cwd path parent →
      ∃ t, (namex sb cwd path parent).run k =
          some (k.fs.walk parent (if path.headD 0 = slash then rootino else cwd)
            (components path), t) ∧
        Holds sb k ((k.fs.walk parent (if path.headD 0 = slash then rootino else cwd)
          (components path)).map Prod.fst) t) ∧
    (¬ k.Finds cwd path parent → (namex sb cwd path parent).run k = none) := by
  unfold namex Kernel.Finds
  by_cases habsolute : path.headD 0 = slash
  · rw [if_pos habsolute, if_pos habsolute, if_pos habsolute]
    have hget : (getInode rootino).run k.fs = (iget k.fs rootino).map fun next => ((), next) := rfl
    rw [iget_eq] at hget
    by_cases hcached : Cachable k.fs rootino
    · rw [if_pos hcached, Option.map_some] at hget
      rw [run_bind (run_files hget)]
      refine (namexLoop_walk parent htree (Nat.lt_succ_self _) hpath hroot
        (htree.holds rootino)).imp ?_ ?_
      · exact fun hrun h => hrun h.2
      · exact fun hrun hnot => hrun fun h => hnot ⟨hcached, h⟩
    · rw [if_neg hcached, Option.map_none] at hget
      exact ⟨fun h => absurd h.1 hcached, fun _ => run_bind_none (run_files_none hget)⟩
  · have hdup : (update fun s => some (idup s cwd)).run k.fs = some ((), k.fs.addRef cwd) := by
      rw [← idup_eq_addRef href]
      rfl
    rw [if_neg habsolute, if_neg habsolute, if_neg habsolute, run_bind (run_files hdup)]
    exact namexLoop_walk parent htree (Nat.lt_succ_self _) hpath hcwd (htree.holds cwd)

/-- `namei` returns the inode at the end of the components of the path, from the root or
from the current directory, and `nameiparent` the directory of the last component with
that component. Both change no file, leave no inode locked and leave one more reference,
to the inode that they return. They return exactly if the cache has an entry for every
inode on the way. -/
theorem path_resolution (htree : Tree sb k) (hroot : Reached k rootino) (hcwd : Reached k cwd)
    (href : 0 < (k.fs.icache cwd).ref) (hpath : 0 ∉ path) :
    ((namei sb cwd path).run k ≠ none ↔ k.Finds cwd path false) ∧
    (∀ result t, (namei sb cwd path).run k = some (result, t) →
      result = k.fs.resolve (if path.headD 0 = slash then rootino else cwd) (components path) ∧
      Holds sb k result t) ∧
    ((nameiparent sb cwd path).run k ≠ none ↔ k.Finds cwd path true) ∧
    ∀ result t, (nameiparent sb cwd path).run k = some (result, t) →
      result = k.fs.resolveParent (if path.headD 0 = slash then rootino else cwd)
        (components path) ∧
      Holds sb k (result.map Prod.fst) t := by
  have hchild := namex_walk htree hroot hcwd href hpath false
  have hparent := namex_walk htree hroot hcwd href hpath true
  rw [walk_false] at hchild
  rw [walk_true] at hparent
  have hnamei : k.Finds cwd path false → ∃ t, (namei sb cwd path).run k =
      some (k.fs.resolve (if path.headD 0 = slash then rootino else cwd) (components path), t) ∧
      Holds sb k (k.fs.resolve (if path.headD 0 = slash then rootino else cwd)
        (components path)) t := by
    intro hfinds
    obtain ⟨t, hrun, hholds⟩ := hchild.1 hfinds
    rw [Option.map_map] at hholds
    refine ⟨t, ?_, ?_⟩
    · rw [namei, run_bind hrun, Option.map_map]
      simp only [Function.comp_def, Option.map_id']
      rfl
    · simpa only [Function.comp_def, Option.map_id'] using hholds
  obtain ⟨hreturns, hresult⟩ := run_iff (Holds sb k) hnamei fun hnot =>
    run_bind_none (hchild.2 hnot)
  obtain ⟨hreturns', hresult'⟩ := run_iff (fun result => Holds sb k (result.map Prod.fst))
    hparent.1 hparent.2
  exact ⟨hreturns, hresult, hreturns', hresult'⟩

end

theorem image_reached {sb : Superblock} {used n ip : Nat} (hip : ip = 1 ∨ ip = 2 ∨ ip = 3) :
    Reached ⟨image sb (dirBlock used) n, fun _ => false⟩ ip := by
  unfold Reached
  dsimp only
  rw [image_inode]
  rcases hip with rfl | rfl | rfl
  · exact ⟨FileType.noConfusion, Or.inl Int.one_ne_zero⟩
  · exact ⟨FileType.noConfusion, Or.inl (by decide : (29 : Int) ≠ 0)⟩
  · exact ⟨FileType.noConfusion, Or.inl Int.one_ne_zero⟩

theorem image_tree {sb : Superblock} {used n : Nat} (hboot : 0 < sb.nmeta)
    (hsize : sb.nmeta + 3 ≤ sb.size) (hninodes : 4 + n ≤ sb.ninodes) :
    Tree sb ⟨image sb (dirBlock used) n, fun _ => false⟩ := by
  have hdirs : ∀ dp, ((image sb (dirBlock used) n).inode dp).type = .dir → dp = 1 ∨ dp = 3 := by
    intro dp hdir
    rw [image_inode, imageInode] at hdir
    dsimp only at hdir
    split at hdir
    · assumption
    · split at hdir
      · cases hdir
      · cases hdir
  refine ⟨image_safe hboot hsize hninodes, image_synced, fun dp hdir => ?_,
    fun dp name inum off hdir hbinding => image_reached ?_, fun _ => rfl⟩
  · dsimp only
    rw [image_inode, imageInode]
    dsimp only
    rw [if_pos (hdirs dp hdir)]
    decide
  · obtain ⟨⟨i, de⟩, hfound, hresult⟩ := Option.map_eq_some_iff.mp hbinding
    obtain ⟨rfl, rfl⟩ := Prod.mk.inj hresult
    obtain ⟨hget, hkey, _⟩ := Slots.first_eq_some.mp hfound
    have hkey := of_decide_eq_true hkey
    rw [image_entries hboot (hdirs dp hdir), List.getElem?_map, Option.map_eq_some_iff] at hget
    obtain ⟨j, _, rfl⟩ := hget
    have hnumber : (dirEntry used dp j).inum ≤ 3 := by
      unfold dirEntry
      have hdp := hdirs dp hdir
      split_ifs
      all_goals
        dsimp only
        omega
    rw [ofBytes_toBytes]
    rw [key_ofBytes] at hkey
    split at hkey
    · cases hkey
    · dsimp only
      omega

/-- The path `/A/../A` leads to the directory 3. -/
theorem path_resolution_back : ∃ t, (namei mkfsDisk 1 [47, 65, 47, 46, 46, 47, 65]).run
    ⟨image mkfsDisk (dirBlock 32) 0, fun _ => false⟩ = some (some 3, t) ∧
      (t.fs.icache 3).ref = 1 ∧ (t.fs.icache 1).ref = 1 ∧ ∀ x, t.busy x = false := by
  have htree : Tree mkfsDisk ⟨image mkfsDisk (dirBlock 32) 0, fun _ => false⟩ :=
    image_tree (by decide) (by decide) (by decide)
  have hroot : Reached ⟨image mkfsDisk (dirBlock 32) 0, fun _ => false⟩ 1 :=
    image_reached (Or.inl rfl)
  obtain ⟨hreturns, hresult, _⟩ := path_resolution htree hroot hroot (by decide)
    (show (0 : UInt8) ∉ [47, 65, 47, 46, 46, 47, 65] by decide)
  have hfinds : Kernel.Finds ⟨image mkfsDisk (dirBlock 32) 0, fun _ => false⟩ 1
      [47, 65, 47, 46, 46, 47, 65] false := by
    decide +kernel
  have hresolve : (image mkfsDisk (dirBlock 32) 0).resolve 1
      (components [47, 65, 47, 46, 46, 47, 65]) = some 3 := by
    decide +kernel
  obtain ⟨⟨result, t⟩, hrun⟩ := Option.ne_none_iff_exists'.mp (hreturns.mpr hfinds)
  obtain ⟨rfl, hholds⟩ := hresult result t hrun
  rw [if_pos (by decide), hresolve] at hrun hholds
  exact ⟨t, hrun, by rw [hholds.ref]; rfl, by rw [hholds.ref]; rfl, hholds.unlocked⟩

/-- With 50 other inodes in the cache there is no entry for the directory 3. -/
theorem path_resolution_full : Tree mkfsDisk ⟨image mkfsDisk (dirBlock 32) 48, fun _ => false⟩ ∧
    (image mkfsDisk (dirBlock 32) 48).icache.live.card = ninode ∧
    (image mkfsDisk (dirBlock 32) 48).resolve 1 (components [47, 65]) = some 3 ∧
    (namei mkfsDisk 1 [47, 65]).run ⟨image mkfsDisk (dirBlock 32) 48, fun _ => false⟩ = none :=
  ⟨image_tree (by decide) (by decide) (by decide), by decide +kernel, by decide +kernel,
    by decide +kernel⟩

end Xv6.Fs
