import Xv6.Fs.Dir
import Xv6.Fs.Icache
import Xv6.Lib.Slots

/-! Directories as finite maps: `dirlookup` over the entries in the contents of the
directory. -/
namespace Xv6.Fs
open Command Slots
open Function (update update_of_ne update_self)

attribute [local simp] strncmp

def cut (name : Name) : Name :=
  (name.takeWhile fun c => c ≠ 0).take dirsiz

def Dirent.key (de : Dirent) : Option Name :=
  if de.inum = 0 then none else some (cut de.name)

def State.dirent (s : State) (dp i : Nat) : Dirent :=
  Dirent.ofBytes ((List.range direntSize).map fun j => s.byte dp (direntSize * i + j))

def State.entries (s : State) (dp : Nat) : List Dirent :=
  (List.range ((s.inode dp).size / direntSize)).map (s.dirent dp)

/-- The number that a name is bound to and the offset of its entry. -/
def State.binding (s : State) (dp : Nat) (name : Name) : Option (Nat × Nat) :=
  (lookup Dirent.key (s.entries dp) name).map fun found => (found.2.inum, direntSize * found.1)

structure Listing (sb : Superblock) (s : State) (dp : Nat) : Prop where
  safe : Safe sb s
  locked : s.Locked dp
  type : (s.inode dp).type = .dir
  whole : direntSize ∣ (s.inode dp).size

section Names

variable {s t : Name} {n : Nat}

theorem strncmp_iff : strncmp n s t = true ↔
    (s.takeWhile fun c => c ≠ 0).take n = (t.takeWhile fun c => c ≠ 0).take n := by
  induction n generalizing s t with
  | zero => simp
  | succ n ih =>
    cases s with
    | nil =>
      cases t with
      | nil => simp
      | cons d t =>
        by_cases hd : d = 0
        · simp [hd]
        · simp [hd, Ne.symm hd]
    | cons c s =>
      cases t with
      | nil =>
        by_cases hc : c = 0
        · simp [hc]
        · simp [hc]
      | cons d t =>
        by_cases hcd : c = d
        · subst hcd
          by_cases hc : c = 0
          · simp [hc]
          · simp [hc, ih]
        · by_cases hc : c = 0
          · subst hc
            simp [hcd, Ne.symm hcd]
          · by_cases hd : d = 0
            · simp [hc, hd]
            · simp [hc, hd, hcd]

theorem namecmp_iff : namecmp s t = true ↔ cut s = cut t :=
  strncmp_iff

theorem length_strncpy : (strncpy n t).length = n := by
  induction n generalizing t with
  | zero => rfl
  | succ n ih =>
    unfold strncpy
    split
    · rw [List.length_replicate]
    · rw [List.length_cons, ih]

theorem takeWhile_strncpy : ((strncpy n t).takeWhile fun c => c ≠ 0) =
    (t.takeWhile fun c => c ≠ 0).take n := by
  induction n generalizing t with
  | zero => rfl
  | succ n ih =>
    cases t with
    | nil => simp [strncpy, List.replicate_succ]
    | cons c t =>
      by_cases hc : c = 0
      · simp [strncpy, hc, List.replicate_succ]
      · have ih' := ih (t := t)
        simp only [ne_eq, decide_not] at ih'
        simp [strncpy, hc, ih']

theorem cut_strncpy : cut (strncpy dirsiz t) = cut t := by
  rw [cut, cut, takeWhile_strncpy, List.take_take, Nat.min_self]

theorem length_toBytes (de : Dirent) : de.toBytes.length = direntSize := by
  rw [Dirent.toBytes, List.length_append, length_strncpy]
  rfl

theorem ofBytes_toBytes (de : Dirent) :
    Dirent.ofBytes de.toBytes = ⟨de.inum % 65536, strncpy dirsiz de.name⟩ := by
  simp only [Dirent.ofBytes, Dirent.toBytes, List.cons_append, List.nil_append,
    List.getElem?_cons_zero, List.getElem?_cons_succ, Option.getD_some, List.drop_succ_cons,
    List.drop_zero, UInt8.toNat_ofNat', Dirent.mk.injEq, and_true]
  omega

end Names

section Scan

variable {s : State} {sb : Superblock} {dp i : Nat}

theorem Safe.size_le (hs : Safe sb s) (ip : Nat) : (s.inode ip).size ≤ maxfile * bsize := by
  by_contra hsize
  exact Nat.lt_irrefl maxfile (hs.dense ip maxfile (Nat.lt_of_not_le hsize)).1

theorem run_inodeOf : (inodeOf dp).run s = some ((s.icache dp).data, s) := rfl

theorem Listing.not_dev (h : Listing sb s dp) : (s.inode dp).type ≠ .dev := by
  rw [h.type]
  decide

theorem length_entries (s : State) (dp : Nat) :
    (s.entries dp).length = (s.inode dp).size / direntSize := by
  rw [State.entries, List.length_map, List.length_range]

theorem Listing.size_eq (h : Listing sb s dp) :
    (s.inode dp).size = direntSize * (s.entries dp).length := by
  rw [length_entries, Nat.mul_div_cancel' h.whole]

theorem Listing.readEntry (h : Listing sb s dp) (hi : i < (s.entries dp).length) :
    (readEntry sb dp (direntSize * i)).run s = some (s.dirent dp i, s) := by
  have hsize := h.size_eq
  have hle := h.safe.size_le dp
  have hread : readi sb [] s dp (direntSize * i) direntSize =
      some (some (((s.content dp).drop (direntSize * i)).take direntSize), s) :=
    readi_content [] h.safe h.locked h.not_dev
    (by simp only [direntSize, dirsiz] at *; omega)
    (by simp only [direntSize, dirsiz, maxfile, ndirect, nindirect, bsize, uintSize] at *; omega)
  have hbytes : ((s.content dp).drop (direntSize * i)).take direntSize =
      (List.range direntSize).map fun j => s.byte dp (direntSize * i + j) := by
    refine List.ext_getElem ?_ fun j h1 h2 => ?_
    · rw [List.length_take, List.length_drop, content_length, List.length_map, List.length_range]
      simp only [direntSize, dirsiz] at *
      omega
    · simp only [State.content, List.getElem_take, List.getElem_drop, List.getElem_map,
        List.getElem_range]
  rw [hbytes] at hread
  rw [Fs.readEntry, run_bind hread]
  dsimp only
  rw [if_pos (by rw [List.length_map, List.length_range])]
  rfl

theorem Listing.scanEntries (h : Listing sb s dp) (test : Dirent → Bool) {fuel : Nat}
    (hfuel : (s.entries dp).length ≤ i + fuel) :
    (scanEntries sb dp test fuel (direntSize * i)).run s =
      some ((first test ((s.entries dp).drop i)).map fun found =>
        (found.2, direntSize * (i + found.1)), s) := by
  have hsize := h.size_eq
  rw [inode_of_locked h.locked] at hsize
  induction fuel generalizing i with
  | zero =>
    rw [List.drop_of_length_le (Nat.add_zero i ▸ hfuel)]
    rfl
  | succ fuel ih =>
    unfold Fs.scanEntries
    rw [run_bind run_inodeOf]
    by_cases hlt : i < (s.entries dp).length
    · rw [if_pos (by simp only [direntSize, dirsiz] at *; omega), run_bind (h.readEntry hlt)]
      have hget : (s.entries dp)[i] = s.dirent dp i := by
        simp only [State.entries, List.getElem_map, List.getElem_range]
      rw [List.drop_eq_getElem_cons hlt, hget]
      unfold first
      by_cases htest : test (s.dirent dp i) = true
      · rw [if_pos htest, if_pos htest]
        rfl
      · rw [if_neg htest, if_neg htest, ← Nat.mul_succ, ih (by omega), Option.map_map]
        simp only [Function.comp_def, Nat.succ_add, Nat.add_succ]
    · rw [if_neg (by simp only [direntSize, dirsiz] at *; omega), List.drop_of_length_le (by omega)]
      rfl

theorem Listing.findEntry (h : Listing sb s dp) (test : Dirent → Bool) (i : Nat) :
    (findEntry sb dp test (direntSize * i)).run s =
      some ((first test ((s.entries dp).drop i)).map fun found =>
        (found.2, direntSize * (i + found.1)), s) := by
  rw [Fs.findEntry, run_bind run_inodeOf]
  refine h.scanEntries test ?_
  have hsize := h.size_eq
  rw [inode_of_locked h.locked] at hsize
  simp only [direntSize, dirsiz] at hsize
  omega

theorem lookup_test (name : Name) (de : Dirent) :
    (decide (de.inum ≠ 0) && namecmp name de.name) = decide (de.key = some (cut name)) := by
  unfold Dirent.key
  by_cases hinum : de.inum = 0
  · simp [hinum]
  · rw [if_neg hinum, Bool.eq_iff_iff, Bool.and_eq_true, decide_eq_true_iff, decide_eq_true_iff,
      namecmp_iff, Option.some.injEq]
    exact ⟨fun h => h.2.symm, fun h => ⟨hinum, h.symm⟩⟩

theorem Listing.lookup (h : Listing sb s dp) (name : Name) :
    (Fs.findEntry sb dp (fun de => de.inum ≠ 0 && namecmp name de.name) 0).run s =
      some ((Slots.lookup Dirent.key (s.entries dp) (cut name)).map fun found =>
        (found.2, direntSize * found.1), s) := by
  have hfind := h.findEntry (fun de => de.inum ≠ 0 && namecmp name de.name) 0
  simp only [Nat.mul_zero, List.drop_zero, Nat.zero_add] at hfind
  rw [hfind, Slots.lookup]
  simp only [lookup_test]

end Scan

section Calls

variable {s s' : State} {sb : Superblock} {dp : Nat} {name : Name} {inum : Nat}

theorem entries_congr (hsize : (s'.inode dp).size = (s.inode dp).size)
    (hbyte : s'.byte dp = s.byte dp) : s'.entries dp = s.entries dp := by
  have hdirent : s'.dirent dp = s.dirent dp := by
    funext i
    rw [State.dirent, State.dirent, hbyte]
  rw [State.entries, State.entries, hsize, hdirent]

theorem binding_congr (h : s'.entries dp = s.entries dp) : s'.binding dp = s.binding dp := by
  funext name
  rw [State.binding, State.binding, h]

theorem SameFiles.entries (h : SameFiles s s') (dp : Nat) : s'.entries dp = s.entries dp :=
  entries_congr (by rw [h.inode]) (h.byte dp)

theorem SameFiles.binding (h : SameFiles s s') (dp : Nat) : s'.binding dp = s.binding dp :=
  binding_congr (h.entries dp)

theorem Listing.dirlookup (h : Listing sb s dp) (name : Name) : (dirlookup sb dp name).run s =
    match s.binding dp (cut name) with
    | some (ip, off) => (iget s ip).map fun t => (some (ip, off), t)
    | none => some (none, s) := by
  have htype := h.type
  rw [inode_of_locked h.locked] at htype
  rw [Fs.dirlookup, run_bind run_inodeOf, if_neg fun hne => hne htype, run_bind (h.lookup name),
    State.binding]
  cases Slots.lookup Dirent.key (s.entries dp) (cut name) with
  | none => rfl
  | some found =>
    show ((iget s found.2.inum).map fun next => ((), next)).bind _ =
      (iget s found.2.inum).map fun t => (some (found.2.inum, direntSize * found.1), t)
    cases iget s found.2.inum with
    | none | some t => rfl

theorem key_ofBytes (inum : Nat) (name : Name) :
    (Dirent.ofBytes (Dirent.toBytes ⟨inum, name⟩)).key =
      if inum % 65536 = 0 then none else some (cut name) := by
  rw [ofBytes_toBytes, Dirent.key, cut_strncpy]

end Calls

/-- The entries of the root directory: the directory 3, the file 2 under many names up to
entry `used`, and free entries. The directory 3 has one name of its own. -/
def dirEntry (used self i : Nat) : Dirent :=
  if i = 0 then ⟨self, dot⟩
  else if i = 1 then ⟨1, dotdot⟩
  else if self = 1 ∧ i = 2 then ⟨3, [65]⟩
  else if self = 3 ∧ i = 2 ∨ self = 1 ∧ i < used then ⟨2, [UInt8.ofNat (i + 94)]⟩
  else ⟨0, []⟩

def dirBlock (used self : Nat) : Block := fun off =>
  (dirEntry used self (off / direntSize)).toBytes.getD (off % direntSize) 0

section

variable {sb : Superblock} {used n : Nat}

theorem image_entries {self : Nat} (hboot : 0 < sb.nmeta) (hself : self = 1 ∨ self = 3) :
    (image sb (dirBlock used) n).entries self =
      (List.range 32).map fun i => Dirent.ofBytes (dirEntry used self i).toBytes := by
  have hsize : ((image sb (dirBlock used) n).inode self).size / direntSize = 32 := by
    rw [image_inode, imageInode]
    dsimp only
    rw [if_pos hself]
    rfl
  rw [State.entries, hsize]
  refine List.map_congr_left fun i hi => ?_
  have hi := List.mem_range.mp hi
  have hlength := length_toBytes (dirEntry used self i)
  rw [State.dirent]
  congr 1
  refine List.ext_getElem (by rw [List.length_map, List.length_range, hlength]) fun j hj hj' => ?_
  rw [hlength] at hj'
  have hoff : (direntSize * i + j) / bsize = 0 ∧ (direntSize * i + j) % bsize =
      direntSize * i + j ∧ (direntSize * i + j) / direntSize = i ∧
      (direntSize * i + j) % direntSize = j := by
    simp only [direntSize, dirsiz, bsize] at *
    omega
  have hblock : (image sb (dirBlock used) n).block (sb.nmeta + self - 1) = dirBlock used self := by
    show (if _ then _ else _) = _
    rw [if_neg (by omega)]
    congr 1
    omega
  rw [List.getElem_map, List.getElem_range, State.byte, hoff.1, image_place hboot,
    if_pos ⟨rfl, by omega, by omega⟩]
  dsimp only
  rw [hoff.2.1, hblock, dirBlock, hoff.2.2.1, hoff.2.2.2]
  rw [List.getD_eq_getElem?_getD, List.getElem?_eq_getElem, Option.getD_some]

end

end Xv6.Fs
