import Mathlib.Data.Finset.Union
import Mathlib.Data.Finset.Option
import Xv6.Fs.Inode
import Xv6.Lib.Ownership

/-! The owner of each block, through `bmap` and `iupdate`: a metadata block, free, or the
block of one file at one place. While an inode is in the cache its blocks are those of
the copy there. -/
namespace Xv6.Fs
open Function Ownership

def Superblock.nmeta (sb : Superblock) : Nat :=
  sb.size - sb.nblocks

/-- The places for block numbers in an inode: those in `addrs`, of which the last
is the indirect block, and the entries of the indirect block. -/
abbrev nslots : Nat := ndirect + 1 + nindirect

def Dinode.slot (inode : Dinode) (block : Nat → Block) (k : Nat) : Nat :=
  if k ≤ ndirect then inode.addrs k
  else if inode.addrs ndirect = 0 then 0
  else word (block (inode.addrs ndirect)) (k - (ndirect + 1))

def slotOf (bn : Nat) : Nat :=
  if bn < ndirect then bn else bn + 1

def State.Locked (s : State) (ip : Nat) : Prop :=
  0 < (s.icache ip).ref ∧ (s.icache ip).valid = true

instance (s : State) (ip : Nat) : Decidable (s.Locked ip) :=
  inferInstanceAs (Decidable (_ ∧ _))

def State.inode (s : State) (ip : Nat) : Dinode :=
  if s.Locked ip then (s.icache ip).data else s.dinode ip

def State.place (s : State) (p : Nat × Nat) : Option Nat :=
  if p.2 < nslots ∧ (s.inode p.1).slot s.block p.2 ≠ 0 then
    some ((s.inode p.1).slot s.block p.2)
  else none

/-- A file system as the kernel sees it: a block is a metadata block, free or at one
place, and the blocks of a file below its size are there. -/
structure Safe (sb : Superblock) (s : State) : Prop where
  owned : Owned (fun b => b < sb.size) (fun b => b < sb.nmeta) s.place (fun b => s.bitmap b = true)
  empty : ∀ ip k, (s.inode ip).type = .free → s.place (ip, k) = none
  limit : ∀ ip, sb.ninodes ≤ ip → (s.inode ip).type = .free
  dense : ∀ ip bn, bn * bsize < (s.inode ip).size →
    bn < maxfile ∧ s.place (ip, slotOf bn) ≠ none
  typed : ∀ ip, s.Locked ip → (s.icache ip).data.type ≠ .free

/-- No inode in the cache waits for `iupdate`. -/
def Synced (s : State) : Prop :=
  ∀ ip, s.Locked ip → (s.icache ip).data = s.dinode ip

/-- The entries that `log_write` uses. -/
def Superblock.logcap (sb : Superblock) : Nat :=
  min Log.logsize (sb.nlog - 1)

section Log

variable {s s' : State} {sb : Superblock} {ip b : Nat}

theorem logWrite_eq_some : logWrite sb s b = some s' ↔
    s.lh.card < sb.logcap ∧ 0 < s.outstanding ∧ s' = s.logged b := by
  unfold logWrite Superblock.logcap
  split
  · rename_i hfull
    exact ⟨fun h => (by cases h), fun h => absurd h.1 (by omega)⟩
  · split
    · rename_i hout
      exact ⟨fun h => (by cases h), fun h => absurd h.2.1 (by omega)⟩
    · rename_i hroom hopen
      rw [Option.some.injEq]
      exact ⟨fun h => ⟨by omega, by omega, h.symm⟩, fun h => h.2.2.symm⟩

/-- No call is in a transaction. -/
def Idle (s : State) : Prop :=
  s.lh = ∅ ∧ s.outstanding = 0

theorem Idle.beginOp (h : Idle s) : beginOp s = some { s with outstanding := 1 } := by
  unfold Fs.beginOp
  rw [h.1, h.2, if_neg (by decide)]

/-- The state that `balloc` leaves with block `b`. -/
def State.allocated (sb : Superblock) (s : State) (b : Nat) : State :=
  ((State.logged { s with bitmap := update s.bitmap b true } (bblock sb b)).setBlock b
    zeroBlock).logged b

/-- The state that `iupdate` leaves. -/
def State.flushed (sb : Superblock) (s : State) (ip : Nat) : State :=
  State.logged { s with dinode := update s.dinode ip (s.icache ip).data } (iblock sb ip)

theorem iupdate_eq_some : iupdate sb s ip = some s' ↔
    s.lh.card < sb.logcap ∧ 0 < s.outstanding ∧ s' = s.flushed sb ip :=
  logWrite_eq_some

/-- The free blocks, in the order in which `balloc` takes them. -/
def freeBlocks (sb : Superblock) (s : State) : List Nat :=
  (List.range sb.size).filter fun b => !s.bitmap b

theorem mem_freeBlocks : b ∈ freeBlocks sb s ↔ b < sb.size ∧ s.bitmap b = false := by
  rw [freeBlocks, List.mem_filter, List.mem_range, Bool.not_eq_true']

theorem freeBlocks_allocated {rest : List Nat} (h : freeBlocks sb s = b :: rest)
    (hbitmap : s'.bitmap = update s.bitmap b true) : freeBlocks sb s' = rest := by
  have hnodup : (freeBlocks sb s).Nodup := List.nodup_range.filter _
  have hfilter : freeBlocks sb s' = (freeBlocks sb s).filter fun c => c ≠ b := by
    rw [freeBlocks, freeBlocks, List.filter_filter, hbitmap]
    refine List.filter_congr fun c _ => ?_
    by_cases hc : c = b
    · rw [hc, update_self, decide_eq_false (not_not.mpr rfl)]
      rfl
    · rw [update_of_ne hc, decide_eq_true hc, Bool.true_and]
  rw [h, List.nodup_cons] at hnodup
  rw [hfilter, h, List.filter_cons_of_neg (by simp), List.filter_eq_self.mpr]
  intro c hc
  refine decide_eq_true ?_
  rintro rfl
  exact hnodup.1 hc

theorem balloc_eq_some : balloc sb s = some (b, s') ↔ (freeBlocks sb s).head? = some b ∧
    (insert (bblock sb b) s.lh).card < sb.logcap ∧ 0 < s.outstanding ∧
      s' = s.allocated sb b := by
  have hhead : (freeBlocks sb s).head? = (List.range sb.size).find? fun b => !s.bitmap b :=
    List.head?_filter ..
  have hgrow := Finset.card_le_card (Finset.subset_insert (bblock sb b) s.lh)
  simp only [balloc, bzero, Option.bind_eq_some_iff, Option.map_eq_some_iff, logWrite_eq_some]
  rw [hhead]
  constructor
  · rintro ⟨c, hc, s1, ⟨_, hopen, rfl⟩, s2, ⟨hroom, _, rfl⟩, hresult⟩
    obtain ⟨rfl, rfl⟩ := Prod.mk.inj hresult
    exact ⟨hc, hroom, hopen, rfl⟩
  · rintro ⟨hb, hroom, hopen, rfl⟩
    exact ⟨b, hb, _, ⟨Nat.lt_of_le_of_lt hgrow hroom, hopen, rfl⟩, _, ⟨hroom, hopen, rfl⟩, rfl⟩

end Log

section Words

variable {block : Block} {i j value : Nat}

theorem word_setWord_self (h : value < uintSize) : word (setWord block i value) i = value := by
  have h1 : 4 * i + 1 ≠ 4 * i := by omega
  have h2 : 4 * i + 2 ≠ 4 * i ∧ 4 * i + 2 ≠ 4 * i + 1 := by omega
  have h3 : 4 * i + 3 ≠ 4 * i ∧ 4 * i + 3 ≠ 4 * i + 1 ∧ 4 * i + 3 ≠ 4 * i + 2 := by omega
  simp only [word, setWord, if_true, if_neg h1, if_neg h2.1, if_neg h2.2, if_neg h3.1,
    if_neg h3.2.1, if_neg h3.2.2, UInt8.toNat_ofNat']
  simp only [uintSize] at h
  omega

theorem word_setWord_of_ne (h : j ≠ i) : word (setWord block i value) j = word block j := by
  have hbyte : ∀ k, k < 4 → setWord block i value (4 * j + k) = block (4 * j + k) := by
    intro k hk
    unfold setWord
    rw [if_neg (by omega), if_neg (by omega), if_neg (by omega), if_neg (by omega)]
  have h0 := hbyte 0 (by omega)
  rw [Nat.add_zero] at h0
  simp only [word, h0, hbyte 1 (by omega), hbyte 2 (by omega), hbyte 3 (by omega)]

end Words

variable {x : Nat}

section

variable {s s' : State} {sb : Superblock} {ip k b : Nat} {p : Nat × Nat}

theorem inode_of_locked (h : s.Locked ip) : s.inode ip = (s.icache ip).data :=
  if_pos h

theorem inode_of_entry (hicache : s'.icache x = s.icache x)
    (hdinode : s'.dinode x = s.dinode x) : s'.inode x = s.inode x := by
  have hlocked : s'.Locked x ↔ s.Locked x := by
    unfold State.Locked
    rw [hicache]
  unfold State.inode
  by_cases h : s.Locked x
  · rw [if_pos h, if_pos (hlocked.mpr h), hicache]
  · rw [if_neg h, if_neg (mt hlocked.mp h), hdinode]

theorem inode_congr (hicache : s'.icache = s.icache) (hdinode : s'.dinode = s.dinode) (x : Nat) :
    s'.inode x = s.inode x :=
  inode_of_entry (by rw [hicache]) (by rw [hdinode])

theorem place_eq_some :
    s.place p = some b ↔ p.2 < nslots ∧ (s.inode p.1).slot s.block p.2 = b ∧ b ≠ 0 := by
  unfold State.place
  split
  · rename_i h
    constructor
    · intro hb
      cases hb
      exact ⟨h.1, rfl, h.2⟩
    · rintro ⟨_, rfl, _⟩
      rfl
  · rename_i h
    constructor
    · intro hb
      cases hb
    · rintro ⟨hk, rfl, hne⟩
      exact absurd ⟨hk, hne⟩ h

theorem place_eq_none : s.place p = none ↔ p.2 < nslots → (s.inode p.1).slot s.block p.2 = 0 := by
  unfold State.place
  split
  · rename_i h
    exact ⟨fun hnone => (by cases hnone), fun hzero => absurd (hzero h.1) h.2⟩
  · rename_i h
    exact ⟨fun _ hk => by_contra fun hne => h ⟨hk, hne⟩, fun _ => rfl⟩

theorem place_congr (h : (s'.inode p.1).slot s'.block p.2 = (s.inode p.1).slot s.block p.2) :
    s'.place p = s.place p := by
  unfold State.place
  rw [h]

variable {inode : Dinode}

theorem slot_addrs {block : Nat → Block} (h : k ≤ ndirect) :
    inode.slot block k = inode.addrs k :=
  if_pos h

theorem slot_entry {block : Nat → Block} {j : Nat} :
    inode.slot block (ndirect + 1 + j) =
      if inode.addrs ndirect = 0 then 0 else word (block (inode.addrs ndirect)) j := by
  unfold Dinode.slot
  rw [if_neg (by omega), Nat.add_sub_cancel_left]

theorem slot_congr {block block' : Nat → Block}
    (h : inode.addrs ndirect ≠ 0 → block' (inode.addrs ndirect) = block (inode.addrs ndirect)) :
    inode.slot block' k = inode.slot block k := by
  unfold Dinode.slot
  split
  · rfl
  · split
    · rfl
    · rename_i hne
      rw [h hne]

theorem place_indirect (h : (s.inode ip).addrs ndirect ≠ 0) :
    s.place (ip, ndirect) = some ((s.inode ip).addrs ndirect) :=
  place_eq_some.mpr ⟨show ndirect < nslots by decide, slot_addrs le_rfl, h⟩

theorem place_of_block (hinode : ∀ x, s'.inode x = s.inode x)
    (hblock : ∀ x, x ≠ b → s'.block x = s.block x) (hb : ∀ x, s.place (x, ndirect) ≠ some b)
    (p : Nat × Nat) : s'.place p = s.place p := by
  refine place_congr ?_
  rw [hinode]
  refine slot_congr fun hne => hblock _ ?_
  rintro rfl
  exact hb p.1 (place_indirect hne)

end

/-- Of the inodes only the block numbers of `ip` in the cache may differ. -/
structure Frame (ip : Nat) (s s' : State) : Prop where
  others : ∀ x, x ≠ ip → s'.icache x = s.icache x
  ref : (s'.icache ip).ref = (s.icache ip).ref
  valid : (s'.icache ip).valid = (s.icache ip).valid
  fields : (s'.icache ip).data = { (s.icache ip).data with addrs := (s'.icache ip).data.addrs }
  dinode : s'.dinode = s.dinode

section

variable {s s' s'' : State} {sb : Superblock} {ip i b : Nat} {p : Nat × Nat}

theorem Frame.refl (ip : Nat) (s : State) : Frame ip s s :=
  ⟨fun _ _ => rfl, rfl, rfl, rfl, rfl⟩

theorem Frame.of_icache (hicache : s'.icache = s.icache) (hdinode : s'.dinode = s.dinode) :
    Frame ip s s' := by
  refine ⟨fun x _ => by rw [hicache], by rw [hicache], by rw [hicache], ?_, hdinode⟩
  rw [hicache]

section

variable (h : Frame ip s s')
include h

theorem Frame.trans (h' : Frame ip s' s'') : Frame ip s s'' where
  others := fun x hx => (h'.others x hx).trans (h.others x hx)
  ref := h'.ref.trans h.ref
  valid := h'.valid.trans h.valid
  fields := by
    rw [h'.fields, h.fields]
  dinode := h'.dinode.trans h.dinode

theorem Frame.locked (x : Nat) : s'.Locked x ↔ s.Locked x := by
  unfold State.Locked
  by_cases hx : x = ip
  · rw [hx, h.ref, h.valid]
  · rw [h.others x hx]

theorem Frame.inode_of_ne (hx : x ≠ ip) : s'.inode x = s.inode x :=
  inode_of_entry (h.others x hx) (by rw [h.dinode])

theorem Frame.inode_self (hlock : s.Locked ip) :
    s'.inode ip = { s.inode ip with addrs := (s'.icache ip).data.addrs } := by
  rw [inode_of_locked ((h.locked ip).mpr hlock), inode_of_locked hlock]
  exact h.fields

theorem Frame.type (hlock : s.Locked ip) (x : Nat) :
    (s'.inode x).type = (s.inode x).type := by
  by_cases hx : x = ip
  · rw [hx, h.inode_self hlock]
  · rw [h.inode_of_ne hx]

theorem Frame.size (hlock : s.Locked ip) (x : Nat) :
    (s'.inode x).size = (s.inode x).size := by
  by_cases hx : x = ip
  · rw [hx, h.inode_self hlock]
  · rw [h.inode_of_ne hx]

end

def lacking (s : State) (ip : Nat) (slots : Finset Nat) : Finset Nat :=
  slots.filter fun k => (s.place (ip, k)).isNone = true

/-- The blocks that fill the empty slots among `slots`. -/
def newBlocks (sb : Superblock) (s : State) (ip : Nat) (slots : Finset Nat) : List Nat :=
  (freeBlocks sb s).take (lacking s ip slots).card

/-- The blocks that go into the log when `bmap` fills the slots and the data blocks at
them are written: the data blocks, the new blocks with the parts of the free map, and the
indirect block if it gets an entry. -/
def footprint (sb : Superblock) (s : State) (ip : Nat) (slots : Finset Nat) : Finset Nat :=
  (slots.erase ndirect).biUnion (fun k => (s.place (ip, k)).toFinset) ∪
    (newBlocks sb s ip slots).toFinset ∪
    (newBlocks sb s ip slots).toFinset.image (bblock sb) ∪
    if ∃ k ∈ lacking s ip slots, ndirect < k then (s.place (ip, ndirect)).toFinset else ∅

/-- Slot `i` of `ip` was empty and gets the first free block `b`, cleared. Besides `b`
only an indirect block may change. -/
structure Attaches (sb : Superblock) (ip i b : Nat) (s s' : State) : Prop where
  frame : Frame ip s s'
  first : freeBlocks sb s = b :: freeBlocks sb s'
  bitmap : s'.bitmap = update s.bitmap b true
  log : s'.lh = insert b (insert (bblock sb b) s.lh) ∪
    if ndirect < i then (s.place (ip, ndirect)).toFinset else ∅
  outstanding : s'.outstanding = s.outstanding
  empty : s.place (ip, i) = none
  place : ∀ q, s'.place q = if q = (ip, i) then some b else s.place q
  cleared : s'.block b = zeroBlock
  blocks : ∀ c, c ≠ b → (∀ x, s.place (x, ndirect) ≠ some c) → s'.block c = s.block c

/-- Some of `slots` have got blocks, and some of the blocks of `footprint` have been
logged. -/
structure Advances (sb : Superblock) (ip : Nat) (slots : Finset Nat) (s s' : State) : Prop where
  room : (lacking s' ip slots).card + (freeBlocks sb s).length =
    (lacking s ip slots).card + (freeBlocks sb s').length
  log : s'.lh ∪ footprint sb s' ip slots = s.lh ∪ footprint sb s ip slots
  logged : s.lh ⊆ s'.lh
  outstanding : s'.outstanding = s.outstanding

theorem Advances.refl (sb : Superblock) (ip : Nat) (slots : Finset Nat) (s : State) :
    Advances sb ip slots s s :=
  ⟨rfl, rfl, subset_rfl, rfl⟩

theorem Advances.trans {slots : Finset Nat} (h : Advances sb ip slots s s')
    (h' : Advances sb ip slots s' s'') : Advances sb ip slots s s'' := by
  refine ⟨?_, h'.log.trans h.log, h.logged.trans h'.logged, h'.outstanding.trans h.outstanding⟩
  have h1 := h.room
  have h2 := h'.room
  omega

/-- What `bmap` does to the blocks of `ip`, with slots among `slots`: places that are
taken keep their blocks, and the blocks of data their bytes. -/
structure Fills (sb : Superblock) (ip : Nat) (slots : Finset Nat) (s s' : State) : Prop extends
    Advances sb ip slots s s' where
  safe : Safe sb s'
  frame : Frame ip s s'
  mono : ∀ q b, s.place q = some b → s'.place q = some b
  others : ∀ q, q.1 ≠ ip → s'.place q = s.place q
  data : ∀ q b, q.2 ≠ ndirect → s.place q = some b → s'.block b = s.block b
  fresh : ∀ k b, k ≠ ndirect → s.place (ip, k) = none → s'.place (ip, k) = some b →
    s'.block b = zeroBlock

theorem Fills.refl (hs : Safe sb s) (slots : Finset Nat) : Fills sb ip slots s s where
  safe := hs
  frame := Frame.refl ip s
  mono := fun _ _ h => h
  others := fun _ _ => rfl
  data := fun _ _ _ _ => rfl
  fresh := fun k b _ hnone hsome => by
    rw [hnone] at hsome
    cases hsome
  toAdvances := Advances.refl sb ip slots s

theorem Fills.trans {slots : Finset Nat} (h : Fills sb ip slots s s')
    (h' : Fills sb ip slots s' s'') : Fills sb ip slots s s'' where
  safe := h'.safe
  frame := h.frame.trans h'.frame
  mono := fun q b hq => h'.mono q b (h.mono q b hq)
  others := fun q hq => (h'.others q hq).trans (h.others q hq)
  data := fun q b hne hq => (h'.data q b hne (h.mono q b hq)).trans (h.data q b hne hq)
  fresh := fun k b hne hnone hsome => by
    cases hmid : s'.place (ip, k) with
    | none => exact h'.fresh k b hne hmid hsome
    | some c =>
      have hc := h'.mono _ c hmid
      rw [hsome] at hc
      cases hc
      rw [h'.data _ b hne hmid]
      exact h.fresh k b hne hnone hmid
  toAdvances := h.toAdvances.trans h'.toAdvances

/-- Enough blocks are left for the slots. -/
def Room (sb : Superblock) (s : State) (ip : Nat) (slots : Finset Nat) : Prop :=
  (lacking s ip slots).card ≤ (freeBlocks sb s).length

/-- Besides the blocks there is an entry in the log when the last of the blocks has been
logged. -/
structure Ready (sb : Superblock) (s : State) (ip : Nat) (slots : Finset Nat) : Prop where
  room : Room sb s ip slots
  log : (s.lh ∪ footprint sb s ip slots).card < sb.logcap
  opened : 0 < s.outstanding

theorem Advances.ready {slots : Finset Nat} (h : Advances sb ip slots s s')
    (hready : Ready sb s ip slots) : Ready sb s' ip slots where
  room := by
    have hroom := hready.room
    have hle := h.room
    unfold Room at *
    omega
  log := by
    rw [h.log]
    exact hready.log
  opened := by
    rw [h.outstanding]
    exact hready.opened

section

variable {slots : Finset Nat}

theorem Attaches.inside (h : Attaches sb ip i b s s') : b < sb.size :=
  (mem_freeBlocks.mp (h.first ▸ List.mem_cons_self)).1

theorem Attaches.free (h : Attaches sb ip i b s s') : s.bitmap b = false :=
  (mem_freeBlocks.mp (h.first ▸ List.mem_cons_self)).2

theorem Attaches.safe (h : Attaches sb ip i b s s') (hs : Safe sb s) (hlock : s.Locked ip) :
    Safe sb s' where
  owned := by
    refine hs.owned.attach (p := (ip, i)) h.inside (by rw [h.free]; decide) h.place h.empty
      fun x _ => ?_
    rw [h.bitmap]
    by_cases hx : x = b
    · rw [hx, update_self]
      exact ⟨fun _ => Or.inl rfl, fun _ => rfl⟩
    · rw [update_of_ne hx]
      exact ⟨Or.inr, fun h => h.resolve_left hx⟩
  empty := by
    intro x k htype
    rw [h.frame.type hlock] at htype
    have hne : (x, k) ≠ (ip, i) := by
      intro heq
      obtain ⟨rfl, _⟩ := Prod.mk.inj heq
      rw [inode_of_locked hlock] at htype
      exact hs.typed x hlock htype
    rw [h.place, if_neg hne]
    exact hs.empty x k htype
  limit := by
    intro x hx
    rw [h.frame.type hlock]
    exact hs.limit x hx
  dense := by
    intro x bn hbn
    rw [h.frame.size hlock] at hbn
    obtain ⟨hlt, hthere⟩ := hs.dense x bn hbn
    refine ⟨hlt, ?_⟩
    rw [h.place]
    split
    · exact Option.some_ne_none b
    · exact hthere
  typed := by
    intro x hx
    rw [← inode_of_locked hx, h.frame.type hlock, inode_of_locked ((h.frame.locked x).mp hx)]
    exact hs.typed x ((h.frame.locked x).mp hx)

theorem Attaches.mem_lacking (h : Attaches sb ip i b s s') (k : Nat) :
    k ∈ lacking s' ip slots ↔ k ≠ i ∧ k ∈ lacking s ip slots := by
  simp only [Fs.lacking, Finset.mem_filter, h.place, Prod.mk.injEq, true_and]
  by_cases hk : k = i
  · rw [if_pos hk]
    exact ⟨fun hnone => (by cases hnone.2), fun hne => absurd hk hne.1⟩
  · rw [if_neg hk]
    exact ⟨fun hnone => ⟨hk, hnone⟩, fun hne => hne.2⟩

theorem Attaches.lacking (h : Attaches sb ip i b s s') (hi : i ∈ slots) :
    (lacking s' ip slots).card + 1 = (lacking s ip slots).card := by
  have hmem : i ∈ Fs.lacking s ip slots :=
    Finset.mem_filter.mpr ⟨hi, by rw [h.empty]; rfl⟩
  have herase : Fs.lacking s' ip slots = (Fs.lacking s ip slots).erase i := by
    ext k
    rw [h.mem_lacking, Finset.mem_erase]
  rw [herase, Finset.card_erase_of_mem hmem]
  exact Nat.sub_add_cancel (Finset.card_pos.mpr ⟨i, hmem⟩)

theorem mem_footprint {c : Nat} : c ∈ footprint sb s ip slots ↔
    (∃ k ∈ slots, k ≠ ndirect ∧ s.place (ip, k) = some c) ∨ c ∈ newBlocks sb s ip slots ∨
      (∃ a ∈ newBlocks sb s ip slots, bblock sb a = c) ∨
      (∃ k ∈ lacking s ip slots, ndirect < k) ∧ s.place (ip, ndirect) = some c := by
  have hplaces : c ∈ (slots.erase ndirect).biUnion (fun k => (s.place (ip, k)).toFinset) ↔
      ∃ k ∈ slots, k ≠ ndirect ∧ s.place (ip, k) = some c := by
    simp only [Finset.mem_biUnion, Finset.mem_erase, Option.mem_toFinset, Option.mem_def]
    exact ⟨fun ⟨k, ⟨hne, hk⟩, hc⟩ => ⟨k, hk, hne, hc⟩, fun ⟨k, hk, hne, hc⟩ => ⟨k, ⟨hne, hk⟩, hc⟩⟩
  have hentry : (c ∈ if ∃ k ∈ lacking s ip slots, ndirect < k
      then (s.place (ip, ndirect)).toFinset else ∅) ↔
      (∃ k ∈ lacking s ip slots, ndirect < k) ∧ s.place (ip, ndirect) = some c := by
    split
    · rename_i hk
      rw [Option.mem_toFinset, Option.mem_def, and_iff_right hk]
    · rename_i hk
      exact ⟨fun h => absurd h (Finset.notMem_empty c), fun h => absurd h.1 hk⟩
  rw [footprint, Finset.mem_union, Finset.mem_union, Finset.mem_union, hplaces, hentry,
    List.mem_toFinset, Finset.mem_image, or_assoc, or_assoc]
  simp only [List.mem_toFinset]

theorem footprint_congr (hplace : ∀ q, s'.place q = s.place q) (hbitmap : s'.bitmap = s.bitmap)
    (slots : Finset Nat) : lacking s' ip slots = lacking s ip slots ∧
      freeBlocks sb s' = freeBlocks sb s ∧ footprint sb s' ip slots = footprint sb s ip slots := by
  have hlacking : Fs.lacking s' ip slots = Fs.lacking s ip slots := by
    simp only [Fs.lacking, hplace]
  have hfree : freeBlocks sb s' = freeBlocks sb s := by
    rw [freeBlocks, freeBlocks, hbitmap]
  refine ⟨hlacking, hfree, ?_⟩
  simp only [footprint, newBlocks, hlacking, hfree, hplace]

theorem Attaches.newBlocks (h : Attaches sb ip i b s s') (hi : i ∈ slots) :
    newBlocks sb s ip slots = b :: newBlocks sb s' ip slots := by
  rw [Fs.newBlocks, Fs.newBlocks, h.first, ← h.lacking hi, List.take_succ_cons]

/-- What is in the log or still to come stays the same. -/
theorem Attaches.footprint (h : Attaches sb ip i b s s') (hi : i ∈ slots) :
    s'.lh ∪ footprint sb s' ip slots = s.lh ∪ footprint sb s ip slots := by
  have hentry : (∃ k ∈ Fs.lacking s ip slots, ndirect < k) ↔
      ndirect < i ∨ ∃ k ∈ Fs.lacking s' ip slots, ndirect < k := by
    constructor
    · rintro ⟨k, hk, hlt⟩
      by_cases hki : k = i
      · exact Or.inl (hki ▸ hlt)
      · exact Or.inr ⟨k, (h.mem_lacking k).mpr ⟨hki, hk⟩, hlt⟩
    · rintro (hlt | ⟨k, hk, hlt⟩)
      · exact ⟨i, Finset.mem_filter.mpr ⟨hi, by rw [h.empty]; rfl⟩, hlt⟩
      · exact ⟨k, ((h.mem_lacking k).mp hk).2, hlt⟩
  have hplace : ∀ k c, s'.place (ip, k) = some c ↔ k = i ∧ c = b ∨ s.place (ip, k) = some c := by
    intro k c
    rw [h.place]
    by_cases hk : k = i
    · rw [hk, if_pos rfl, h.empty]
      simp [eq_comm]
    · rw [if_neg fun heq => hk (Prod.mk.inj heq).2]
      simp [hk]
  have hdata : ∀ c, (∃ k ∈ slots, k ≠ ndirect ∧ s'.place (ip, k) = some c) ↔
      i ≠ ndirect ∧ c = b ∨ ∃ k ∈ slots, k ≠ ndirect ∧ s.place (ip, k) = some c := by
    intro c
    simp only [hplace]
    constructor
    · rintro ⟨k, hk, hne, ⟨rfl, rfl⟩ | hc⟩
      · exact Or.inl ⟨hne, rfl⟩
      · exact Or.inr ⟨k, hk, hne, hc⟩
    · rintro (⟨hne, rfl⟩ | ⟨k, hk, hne, hc⟩)
      · exact ⟨i, hi, hne, Or.inl ⟨rfl, rfl⟩⟩
      · exact ⟨k, hk, hne, Or.inr hc⟩
  have hlog : ∀ c, c ∈ s'.lh ↔ c = b ∨ c = bblock sb b ∨ c ∈ s.lh ∨
      ndirect < i ∧ s.place (ip, ndirect) = some c := by
    intro c
    rw [h.log, Finset.mem_union, Finset.mem_insert, Finset.mem_insert, or_assoc, or_assoc]
    split
    · rename_i hlt
      rw [Option.mem_toFinset, Option.mem_def, and_iff_right hlt]
    · rename_i hlt
      simp [hlt]
  ext c
  rw [Finset.mem_union, Finset.mem_union, mem_footprint, mem_footprint, hlog, h.newBlocks hi,
    hentry, hdata, hplace, List.mem_cons, List.exists_mem_cons_iff]
  by_cases hind : ndirect = i
  · have hnone := h.empty
    rw [← hind] at hnone
    grind
  · grind

theorem Attaches.fills (h : Attaches sb ip i b s s') (hs : Safe sb s) (hlock : s.Locked ip)
    (hi : i ∈ slots) : Fills sb ip slots s s' where
  safe := h.safe hs hlock
  frame := h.frame
  mono := by
    intro q c hq
    rw [h.place]
    split
    · rename_i heq
      rw [heq, h.empty] at hq
      cases hq
    · exact hq
  others := by
    intro q hq
    rw [h.place, if_neg fun heq => hq (by rw [heq])]
  data := by
    intro q c hne hq
    refine h.blocks c ?_ fun x hx => ?_
    · rintro rfl
      have hused := hs.owned.used hq
      rw [h.free] at hused
      cases hused
    · exact hne (Prod.mk.inj (hs.owned.once _ _ _ hq hx)).2
  fresh := by
    intro k c _ hnone hsome
    rw [h.place] at hsome
    split at hsome
    · cases hsome
      exact h.cleared
    · rw [hnone] at hsome
      cases hsome
  room := by
    rw [← h.lacking hi, h.first, List.length_cons]
    omega
  log := h.footprint hi
  logged := by
    rw [h.log]
    exact ((Finset.subset_insert ..).trans (Finset.subset_insert ..)).trans
      Finset.subset_union_left
  outstanding := h.outstanding

end

end

/-- A superblock whose block numbers fit into words, with a block in front of the
data blocks. -/
structure Superblock.Sane (sb : Superblock) : Prop where
  size : sb.size ≤ uintSize
  boot : 0 < sb.nmeta

section

variable {s s' s1 : State} {sb : Superblock} {ip i bn b : Nat} {slots : Finset Nat}

theorem balloc_fresh (hsb : sb.Sane) (hs : Safe sb s) (h : balloc sb s = some (b, s1)) :
    (freeBlocks sb s = b :: freeBlocks sb s1 ∧ s1.bitmap = update s.bitmap b true ∧
        s1.lh = insert b (insert (bblock sb b) s.lh) ∧ s1.outstanding = s.outstanding) ∧
      b < sb.size ∧ b ≠ 0 ∧ (∀ q, s.place q ≠ some b) ∧ s1.dinode = s.dinode ∧
      s1.icache = s.icache ∧ s1.block = update s.block b zeroBlock := by
  obtain ⟨hhead, _, _, rfl⟩ := balloc_eq_some.mp h
  obtain ⟨rest, hrest⟩ := List.head?_eq_some_iff.mp hhead
  obtain ⟨hlt, hfree⟩ := mem_freeBlocks.mp (hrest ▸ List.mem_cons_self)
  have hnot : ¬ s.bitmap b = true := by
    rw [hfree]
    decide
  refine ⟨⟨?_, rfl, rfl, rfl⟩, hlt, ?_, fun q hq => hnot (hs.owned.used hq), rfl, rfl, rfl⟩
  · rw [hrest, freeBlocks_allocated hrest rfl]
  · rintro rfl
    exact hnot ((hs.owned.exact 0 hlt).mpr (Or.inl hsb.boot))

theorem lacking_of_place (hi : i ∈ slots) (hnone : s.place (ip, i) = none) :
    i ∈ lacking s ip slots :=
  Finset.mem_filter.mpr ⟨hi, by rw [hnone]; rfl⟩

theorem head_mem_newBlocks (hi : i ∈ lacking s ip slots)
    (hb : (freeBlocks sb s).head? = some b) : b ∈ newBlocks sb s ip slots := by
  obtain ⟨rest, hrest⟩ := List.head?_eq_some_iff.mp hb
  rw [newBlocks, hrest, ← Nat.succ_pred_eq_of_pos (Finset.card_pos.mpr ⟨i, hi⟩),
    List.take_succ_cons]
  exact List.mem_cons_self

theorem Ready.store (h : Ready sb s ip slots) (data : Block) :
    logWrite sb (s.setBlock b data) b = some ((s.setBlock b data).logged b) :=
  logWrite_eq_some.mpr
    ⟨Nat.lt_of_le_of_lt (Finset.card_le_card Finset.subset_union_left) h.log, h.opened, rfl⟩

theorem Ready.balloc_total (h : Ready sb s ip slots) (hi : i ∈ slots)
    (hnone : s.place (ip, i) = none) : ∃ b s1, balloc sb s = some (b, s1) := by
  have hlack := lacking_of_place hi hnone
  obtain ⟨b, rest, hfree⟩ := List.length_pos_iff_exists_cons.mp
    (Nat.lt_of_lt_of_le (Finset.card_pos.mpr ⟨i, hlack⟩) h.room)
  have hhead : (freeBlocks sb s).head? = some b := by
    rw [hfree]
    rfl
  refine ⟨b, _, balloc_eq_some.mpr ⟨hhead, ?_, h.opened, rfl⟩⟩
  refine Nat.lt_of_le_of_lt (Finset.card_le_card ?_) h.log
  refine Finset.insert_subset (Finset.mem_union_right _ (mem_footprint.mpr ?_))
    Finset.subset_union_left
  exact Or.inr (Or.inr (Or.inl ⟨b, head_mem_newBlocks hlack hhead, rfl⟩))

theorem frame_setAddr (hicache : s1.icache = s.icache) (hdinode : s1.dinode = s.dinode) :
    Frame ip s (s1.setAddr ip i b) := by
  refine ⟨fun x hx => ?_, ?_, ?_, ?_, hdinode⟩
  · simp only [State.setAddr, State.setData, State.setInode, Icache.set, update_of_ne hx, hicache]
  · simp only [State.setAddr, State.setData, State.setInode, Icache.set, update_self, hicache]
  · simp only [State.setAddr, State.setData, State.setInode, Icache.set, update_self, hicache]
  · simp only [State.setAddr, State.setData, State.setInode, Icache.set, update_self, hicache]

theorem data_setAddr (s : State) (ip i b : Nat) :
    ((s.setAddr ip i b).icache ip).data.addrs =
      update (s.icache ip).data.addrs i b := by
  simp only [State.setAddr, State.setData, State.setInode, Icache.set, update_self]

theorem slot_addr (hlock : s.Locked ip) (hi : i ≤ ndirect) :
    (s.inode ip).slot s.block i = s.addr ip i := by
  rw [slot_addrs hi, inode_of_locked hlock, State.addr]

theorem loadAddr_cases (hsb : sb.Sane) (hs : Safe sb s) (hlock : s.Locked ip) (hi : i ≤ ndirect)
    (h : loadAddr sb s ip i = some (b, s')) :
    s.place (ip, i) = some b ∧ s' = s ∨ Attaches sb ip i b s s' := by
  have hslot := slot_addr hlock hi
  have hnslots : i < nslots := Nat.lt_of_le_of_lt hi (by decide)
  unfold loadAddr at h
  split at h
  · rename_i hzero
    obtain ⟨⟨b, s1⟩, halloc, hresult⟩ := Option.map_eq_some_iff.mp h
    cases hresult
    obtain ⟨⟨hfirst, hbitmap, hlog, hout⟩, hlt, hne, hnowhere, hdinode, hicache, hblock⟩ :=
      balloc_fresh hsb hs halloc
    have hframe : Frame ip s (s1.setAddr ip i b) := frame_setAddr hicache hdinode
    have hinode := hframe.inode_self hlock
    rw [data_setAddr, hicache, ← inode_of_locked hlock] at hinode
    have hothers : ∀ x, x ≠ b → (s1.setAddr ip i b).block x = s.block x := by
      intro x hx
      show s1.block x = s.block x
      rw [hblock, update_of_ne hx]
    have hcleared : (s1.setAddr ip i b).block b = zeroBlock := by
      show s1.block b = zeroBlock
      rw [hblock, update_self]
    have hplace : ∀ q, (s1.setAddr ip i b).place q = if q = (ip, i) then some b else s.place q := by
      rintro ⟨x, k⟩
      by_cases hx : x = ip
      · subst hx
        by_cases hk : k = i
        · subst hk
          rw [if_pos rfl]
          refine place_eq_some.mpr ⟨hnslots, ?_, hne⟩
          rw [slot_addrs hi, hinode]
          exact update_self ..
        · have hpair : (x, k) ≠ (x, i) := fun heq => hk (Prod.mk.inj heq).2
          rw [if_neg hpair]
          refine place_congr ?_
          rw [hinode]
          by_cases hdirect : k ≤ ndirect
          · rw [slot_addrs hdirect, slot_addrs hdirect]
            exact update_of_ne hk ..
          · obtain ⟨j, rfl⟩ : ∃ j, k = ndirect + 1 + j := ⟨k - (ndirect + 1), by omega⟩
            rw [slot_entry, slot_entry]
            by_cases hind : i = ndirect
            · -- the new indirect block is empty
              subst hind
              have haddr : (s.inode x).addrs ndirect = 0 := by
                rw [← slot_addrs le_rfl, hslot, hzero]
              simp only [update_self, if_neg hne, haddr, if_true, hcleared]
              rfl
            · simp only [update_of_ne (Ne.symm hind)]
              split
              · rfl
              · rename_i haddr
                rw [hothers]
                rintro rfl
                exact hnowhere _ (place_indirect haddr)
      · have hpair : (x, k) ≠ (ip, i) := fun heq => hx (Prod.mk.inj heq).1
        rw [if_neg hpair]
        refine place_congr ?_
        rw [hframe.inode_of_ne hx]
        refine slot_congr fun haddr => hothers _ ?_
        rintro rfl
        exact hnowhere _ (place_indirect haddr)
    refine Or.inr ⟨hframe, hfirst, hbitmap, ?_, hout,
      place_eq_none.mpr fun _ => by rw [hslot, hzero], hplace, hcleared,
      fun c hc _ => hothers c hc⟩
    rw [if_neg (Nat.not_lt.mpr hi), Finset.union_empty]
    exact hlog
  · rename_i hne
    cases h
    exact Or.inl ⟨place_eq_some.mpr ⟨hnslots, hslot, hne⟩, rfl⟩

theorem slot_word {ind j : Nat} (hind : s.place (ip, ndirect) = some ind) :
    (s.inode ip).slot s.block (ndirect + 1 + j) = word (s.block ind) j := by
  obtain ⟨_, haddr, hindne⟩ := place_eq_some.mp hind
  rw [slot_addrs le_rfl] at haddr
  rw [slot_entry, haddr, if_neg hindne]

theorem loadEntry_cases {ind j : Nat} (hsb : sb.Sane) (hs : Safe sb s)
    (hind : s.place (ip, ndirect) = some ind) (hj : j < nindirect)
    (h : loadEntry sb s ind j = some (b, s')) :
    s.place (ip, ndirect + 1 + j) = some b ∧ s' = s ∨
      Attaches sb ip (ndirect + 1 + j) b s s' := by
  obtain ⟨_, haddr, hindne⟩ := place_eq_some.mp hind
  rw [slot_addrs le_rfl] at haddr
  have hnslots : ndirect + 1 + j < nslots := Nat.add_lt_add_left hj _
  have hslot := slot_word (j := j) hind
  unfold loadEntry at h
  split at h
  · rename_i hzero
    obtain ⟨⟨b, s1⟩, halloc, hresult⟩ := Option.bind_eq_some_iff.mp h
    obtain ⟨s2, hwrite, heq⟩ := Option.map_eq_some_iff.mp hresult
    obtain ⟨_, _, rfl⟩ := logWrite_eq_some.mp hwrite
    cases heq
    obtain ⟨⟨hfirst, hbitmap, hlog, hout⟩, hlt, hne, hnowhere, hdinode, hicache, hblock⟩ :=
      balloc_fresh hsb hs halloc
    have hframe : Frame ip s ((s1.setBlock ind (setWord (s1.block ind) j b)).logged ind) :=
      Frame.of_icache hicache hdinode
    have hinode : ∀ x, ((s1.setBlock ind (setWord (s1.block ind) j b)).logged ind).inode x =
        s.inode x := inode_congr hicache hdinode
    have hindb : ind ≠ b := by
      rintro rfl
      exact hnowhere _ hind
    have hself : ((s1.setBlock ind (setWord (s1.block ind) j b)).logged ind).block ind =
        setWord (s.block ind) j b := by
      show update s1.block ind (setWord (s1.block ind) j b) ind = _
      rw [update_self, hblock, update_of_ne hindb]
    have hothers : ∀ x, x ≠ ind → x ≠ b →
        ((s1.setBlock ind (setWord (s1.block ind) j b)).logged ind).block x = s.block x := by
      intro x hx hxb
      show update s1.block ind (setWord (s1.block ind) j b) x = _
      rw [update_of_ne hx, hblock, update_of_ne hxb]
    have hcleared : ((s1.setBlock ind (setWord (s1.block ind) j b)).logged ind).block b =
        zeroBlock := by
      show update s1.block ind (setWord (s1.block ind) j b) b = _
      rw [update_of_ne (Ne.symm hindb), hblock, update_self]
    have hplace : ∀ q, ((s1.setBlock ind (setWord (s1.block ind) j b)).logged ind).place q =
        if q = (ip, ndirect + 1 + j) then some b else s.place q := by
      rintro ⟨x, k⟩
      by_cases hx : x = ip
      · subst hx
        by_cases hk : k = ndirect + 1 + j
        · subst hk
          rw [if_pos rfl]
          refine place_eq_some.mpr ⟨hnslots, ?_, hne⟩
          rw [slot_entry, hinode, haddr, if_neg hindne, hself,
            word_setWord_self (Nat.lt_of_lt_of_le hlt hsb.size)]
        · have hpair : (x, k) ≠ (x, ndirect + 1 + j) := fun heq => hk (Prod.mk.inj heq).2
          rw [if_neg hpair]
          refine place_congr ?_
          rw [hinode]
          by_cases hdirect : k ≤ ndirect
          · rw [slot_addrs hdirect, slot_addrs hdirect]
          · obtain ⟨i, rfl⟩ : ∃ i, k = ndirect + 1 + i := ⟨k - (ndirect + 1), by omega⟩
            have hij : i ≠ j := by
              rintro rfl
              exact hk rfl
            rw [slot_entry, slot_entry, haddr, if_neg hindne, if_neg hindne, hself,
              word_setWord_of_ne hij]
      · have hpair : (x, k) ≠ (ip, ndirect + 1 + j) := fun heq => hx (Prod.mk.inj heq).1
        rw [if_neg hpair]
        refine place_congr ?_
        rw [hinode]
        refine slot_congr fun haddr' => hothers _ ?_ ?_
        · -- the indirect blocks of two inodes are different
          intro heq
          have hother := place_indirect haddr'
          rw [heq] at hother
          exact hx (Prod.mk.inj (hs.owned.once _ _ _ hother hind)).1
        · rintro rfl
          exact hnowhere _ (place_indirect haddr')
    refine Or.inr ⟨hframe, hfirst, hbitmap, ?_, hout,
      place_eq_none.mpr fun _ => by rw [hslot, hzero], hplace, hcleared,
      fun c hc hnot => hothers c ?_ hc⟩
    · rw [if_pos (by omega), hind, ← hlog, Option.toFinset_some, Finset.union_comm]
      rfl
    · rintro rfl
      exact hnot ip hind
  · rename_i hne
    cases h
    exact Or.inl ⟨place_eq_some.mpr ⟨hnslots, hslot, hne⟩, rfl⟩

/-- The slots that `bmap` needs for block `bn`. -/
def slotsFor (bn : Nat) : Finset Nat :=
  if bn < ndirect then {bn} else {ndirect, slotOf bn}

theorem slotOf_of_lt (h : bn < ndirect) : slotOf bn = bn :=
  if_pos h

theorem slotOf_of_not_lt (h : ¬ bn < ndirect) : slotOf bn = ndirect + 1 + (bn - ndirect) := by
  rw [slotOf, if_neg h]
  omega

theorem slotOf_ne (bn : Nat) : slotOf bn ≠ ndirect := by
  unfold slotOf
  split
  · omega
  · omega

theorem slotOf_mem (bn : Nat) : slotOf bn ∈ slotsFor bn := by
  unfold slotsFor
  split
  · rename_i h
    rw [slotOf_of_lt h]
    exact Finset.mem_singleton_self bn
  · exact Finset.mem_insert_of_mem (Finset.mem_singleton_self _)

theorem ndirect_mem (h : ¬ bn < ndirect) : ndirect ∈ slotsFor bn := by
  rw [slotsFor, if_neg h]
  exact Finset.mem_insert_self ..

theorem place_ndirect_of_entry {j c : Nat} (h : s.place (ip, ndirect + 1 + j) = some c) :
    ∃ ind, s.place (ip, ndirect) = some ind := by
  obtain ⟨_, hslot, hne⟩ := place_eq_some.mp h
  have haddr : (s.inode ip).addrs ndirect ≠ 0 := by
    intro hzero
    rw [slot_entry, if_pos hzero] at hslot
    exact hne hslot.symm
  exact ⟨_, place_indirect haddr⟩

theorem fills_of_cases (hs : Safe sb s) (hlock : s.Locked ip) (hi : i ∈ slots)
    (h : s.place (ip, i) = some b ∧ s' = s ∨ Attaches sb ip i b s s') :
    Fills sb ip slots s s' ∧ s'.place (ip, i) = some b ∧ (s.place (ip, i) ≠ none → s' = s) := by
  obtain ⟨hplace, rfl⟩ | hattach := h
  · exact ⟨Fills.refl hs slots, hplace, fun _ => rfl⟩
  · refine ⟨hattach.fills hs hlock hi, ?_, fun hne => absurd hattach.empty hne⟩
    rw [hattach.place, if_pos rfl]

theorem bmap_fills (hsb : sb.Sane) (hs : Safe sb s) (hlock : s.Locked ip)
    (hslots : slotsFor bn ⊆ slots) (h : bmap sb s ip bn = some (b, s')) :
    Fills sb ip slots s s' ∧ s'.place (ip, slotOf bn) = some b ∧ bn < maxfile ∧
      (s.place (ip, slotOf bn) ≠ none → s' = s) := by
  have hmem := hslots (slotOf_mem bn)
  unfold bmap at h
  split at h
  · rename_i hdirect
    rw [slotOf_of_lt hdirect] at hmem ⊢
    obtain ⟨hfills, hplace, hsame⟩ :=
      fills_of_cases hs hlock hmem (loadAddr_cases hsb hs hlock (Nat.le_of_lt hdirect) h)
    exact ⟨hfills, hplace, by simp only [maxfile]; omega, hsame⟩
  · rename_i hdirect
    split at h
    · rename_i hindirect
      have hind := hslots (ndirect_mem hdirect)
      rw [slotOf_of_not_lt hdirect] at hmem ⊢
      obtain ⟨⟨ind, s1⟩, hload, hentry⟩ := Option.bind_eq_some_iff.mp h
      obtain ⟨hfills1, hplace1, hsame1⟩ :=
        fills_of_cases hs hlock hind (loadAddr_cases hsb hs hlock le_rfl hload)
      have hlock1 := (hfills1.frame.locked ip).mpr hlock
      obtain ⟨hfills2, hplace2, hsame2⟩ := fills_of_cases hfills1.safe hlock1 hmem
        (loadEntry_cases hsb hfills1.safe hplace1 hindirect hentry)
      refine ⟨hfills1.trans hfills2, hplace2, by simp only [maxfile]; omega, fun hthere => ?_⟩
      obtain ⟨c, hc⟩ := Option.ne_none_iff_exists'.mp hthere
      obtain ⟨ind', hold⟩ := place_ndirect_of_entry hc
      rw [hsame2 (by rw [hfills1.mono _ c hc]; exact Option.some_ne_none c),
        hsame1 (by rw [hold]; exact Option.some_ne_none ind')]
    · cases h

theorem loadAddr_total (hlock : s.Locked ip) (hi : i ≤ ndirect) (hmem : i ∈ slots)
    (hready : Ready sb s ip slots) : ∃ b s1, loadAddr sb s ip i = some (b, s1) := by
  unfold loadAddr
  split
  · rename_i hzero
    obtain ⟨b, s1, halloc⟩ := hready.balloc_total hmem
      (place_eq_none.mpr fun _ => by rw [slot_addr hlock hi, hzero])
    rw [halloc]
    exact ⟨_, _, rfl⟩
  · exact ⟨_, _, rfl⟩

theorem loadEntry_total {ind j : Nat} (hind : s.place (ip, ndirect) = some ind)
    (hmem : ndirect + 1 + j ∈ slots) (hready : Ready sb s ip slots) :
    ∃ b s1, loadEntry sb s ind j = some (b, s1) := by
  unfold loadEntry
  split
  · rename_i hzero
    have hnone : s.place (ip, ndirect + 1 + j) = none :=
      place_eq_none.mpr fun _ => by rw [slot_word hind, hzero]
    obtain ⟨b, s1, halloc⟩ := hready.balloc_total hmem hnone
    obtain ⟨hhead, _, _, rfl⟩ := balloc_eq_some.mp halloc
    have hnew : b ∈ newBlocks sb s ip slots :=
      head_mem_newBlocks (lacking_of_place hmem hnone) hhead
    have hlog : ((s.allocated sb b).lh).card < sb.logcap := by
      refine Nat.lt_of_le_of_lt (Finset.card_le_card ?_) hready.log
      refine Finset.insert_subset ?_ (Finset.insert_subset ?_ Finset.subset_union_left)
      · exact Finset.mem_union_right _ (mem_footprint.mpr (Or.inr (Or.inl hnew)))
      · exact Finset.mem_union_right _
          (mem_footprint.mpr (Or.inr (Or.inr (Or.inl ⟨b, hnew, rfl⟩))))
    rw [halloc]
    refine ⟨b, _, Option.map_eq_some_iff.mpr ⟨_, logWrite_eq_some.mpr ⟨hlog, ?_, rfl⟩, rfl⟩⟩
    exact hready.opened
  · exact ⟨_, _, rfl⟩

theorem bmap_total (hsb : sb.Sane) (hs : Safe sb s) (hlock : s.Locked ip) (hbn : bn < maxfile)
    (hslots : slotsFor bn ⊆ slots) (hready : Ready sb s ip slots) :
    ∃ b s1, bmap sb s ip bn = some (b, s1) := by
  have hmem := hslots (slotOf_mem bn)
  unfold bmap
  split
  · rename_i hdirect
    rw [slotOf_of_lt hdirect] at hmem
    exact loadAddr_total hlock (Nat.le_of_lt hdirect) hmem hready
  · rename_i hdirect
    have hindirect : bn - ndirect < nindirect := by
      simp only [maxfile] at hbn
      omega
    have hind := hslots (ndirect_mem hdirect)
    rw [slotOf_of_not_lt hdirect] at hmem
    rw [if_pos hindirect]
    obtain ⟨ind, s1, hload⟩ := loadAddr_total hlock le_rfl hind hready
    obtain ⟨hfills, hplace, _⟩ :=
      fills_of_cases hs hlock hind (loadAddr_cases hsb hs hlock le_rfl hload)
    rw [hload]
    exact loadEntry_total hplace hmem (hfills.ready hready)

theorem bmap_of_place (hlock : s.Locked ip) (hbn : bn < maxfile)
    (h : s.place (ip, slotOf bn) = some b) : bmap sb s ip bn = some (b, s) := by
  unfold bmap
  split
  · rename_i hdirect
    rw [slotOf_of_lt hdirect] at h
    obtain ⟨_, hslot, hne⟩ := place_eq_some.mp h
    rw [slot_addr hlock (Nat.le_of_lt hdirect)] at hslot
    rw [loadAddr, hslot, if_neg hne]
  · rename_i hdirect
    have hindirect : bn - ndirect < nindirect := by
      simp only [maxfile] at hbn
      omega
    rw [slotOf_of_not_lt hdirect] at h
    obtain ⟨ind, hind⟩ := place_ndirect_of_entry h
    obtain ⟨_, haddr, hindne⟩ := place_eq_some.mp hind
    rw [slot_addr hlock le_rfl] at haddr
    obtain ⟨_, hslot, hne⟩ := place_eq_some.mp h
    rw [slot_word hind] at hslot
    rw [if_pos hindirect, loadAddr, haddr, if_neg hindne]
    show loadEntry sb s ind (bn - ndirect) = some (b, s)
    rw [loadEntry, hslot, if_neg hne]

theorem Safe.congr (hs : Safe sb s) (hplace : ∀ q, s'.place q = s.place q)
    (hbitmap : s'.bitmap = s.bitmap) (hinode : ∀ x, s'.inode x = s.inode x)
    (hlocked : ∀ x, s'.Locked x → s.Locked x) : Safe sb s' where
  owned := hs.owned.congr hplace fun b _ => by rw [hbitmap]
  empty := by
    intro ip k htype
    rw [hinode] at htype
    rw [hplace]
    exact hs.empty ip k htype
  limit := by
    intro ip hip
    rw [hinode]
    exact hs.limit ip hip
  dense := by
    intro ip bn hbn
    rw [hinode] at hbn
    rw [hplace]
    exact hs.dense ip bn hbn
  typed := by
    intro ip hlock
    rw [← inode_of_locked hlock, hinode, inode_of_locked (hlocked ip hlock)]
    exact hs.typed ip (hlocked ip hlock)

theorem Safe.withLog (hs : Safe sb s) (lh : Finset Nat) (outstanding : Nat) :
    Safe sb { s with lh := lh, outstanding := outstanding } :=
  hs.congr (fun _ => rfl) rfl (fun _ => rfl) fun _ h => h

theorem store_place {data : Block} (hs : Safe sb s) (hb : s.place (ip, slotOf bn) = some b)
    (q : Nat × Nat) : ((s.setBlock b data).logged b).place q = s.place q := by
  have hnot : ∀ x, s.place (x, ndirect) ≠ some b := by
    intro x hx
    exact slotOf_ne bn (Prod.mk.inj (hs.owned.once _ _ _ hb hx)).2
  have hinode : ∀ x, ((s.setBlock b data).logged b).inode x = s.inode x := inode_congr rfl rfl
  exact place_of_block hinode (fun x hx => update_of_ne hx _ _) hnot q

theorem store_advances {data : Block} (hs : Safe sb s) (hb : s.place (ip, slotOf bn) = some b)
    (hmem : slotOf bn ∈ slots) : Advances sb ip slots s ((s.setBlock b data).logged b) := by
  obtain ⟨hlacking, hfree, hfootprint⟩ :=
    @footprint_congr s ((s.setBlock b data).logged b) sb ip (store_place hs hb) rfl slots
  refine ⟨by rw [hlacking, hfree], ?_, Finset.subset_insert .., rfl⟩
  rw [hfootprint]
  show insert b s.lh ∪ _ = _
  rw [Finset.insert_union, Finset.insert_eq_self]
  exact Finset.mem_union_right _ (mem_footprint.mpr (Or.inl ⟨_, hmem, slotOf_ne bn, hb⟩))

theorem store_safe {data : Block} (hs : Safe sb s) (hb : s.place (ip, slotOf bn) = some b) :
    Safe sb ((s.setBlock b data).logged b) :=
  hs.congr (store_place hs hb) rfl (inode_congr rfl rfl) fun _ hx => hx

end

section

variable {s : State} {sb : Superblock} {ip : Nat}

variable {data : Dinode}

theorem Safe.setData (hs : Safe sb s) (hlock : s.Locked ip)
    (haddrs : data.addrs = (s.icache ip).data.addrs) (htype : data.type = (s.icache ip).data.type)
    (hdense : ∀ bn, bn * bsize < data.size → bn < maxfile ∧ s.place (ip, slotOf bn) ≠ none) :
    Safe sb (s.setData ip data) ∧ ∀ q, (s.setData ip data).place q = s.place q := by
  have hlocked : ∀ x, (s.setData ip data).Locked x ↔ s.Locked x := by
    intro x
    unfold State.Locked
    by_cases hx : x = ip
    · simp only [hx, State.setData, State.setInode, Icache.set, update_self]
    · simp only [State.setData, State.setInode, Icache.set, update_of_ne hx]
  have hself : (s.setData ip data).inode ip = data := by
    rw [inode_of_locked ((hlocked ip).mpr hlock)]
    simp only [State.setData, State.setInode, Icache.set, update_self]
  have hother : ∀ x, x ≠ ip → (s.setData ip data).inode x = s.inode x := by
    intro x hx
    exact inode_of_entry (update_of_ne hx _ _) rfl
  have htypes : ∀ x, ((s.setData ip data).inode x).type = (s.inode x).type := by
    intro x
    by_cases hx : x = ip
    · rw [hx, hself, htype, inode_of_locked hlock]
    · rw [hother x hx]
  have hplace : ∀ q, (s.setData ip data).place q = s.place q := by
    rintro ⟨x, k⟩
    refine place_congr ?_
    by_cases hx : x = ip
    · subst hx
      show ((s.setData x data).inode x).slot s.block k = (s.inode x).slot s.block k
      rw [hself, inode_of_locked hlock]
      simp only [Dinode.slot, haddrs]
    · rw [hother x hx]
      rfl
  refine ⟨⟨hs.owned.congr hplace fun b _ => Iff.rfl, fun x k hfree => ?_, fun x hx => ?_,
    fun x bn hbn => ?_, fun x hx => ?_⟩, hplace⟩
  · rw [htypes] at hfree
    rw [hplace]
    exact hs.empty x k hfree
  · rw [htypes]
    exact hs.limit x hx
  · rw [hplace]
    by_cases hxip : x = ip
    · subst hxip
      rw [hself] at hbn
      exact hdense bn hbn
    · rw [hother x hxip] at hbn
      exact hs.dense x bn hbn
  · rw [← inode_of_locked hx, htypes, inode_of_locked ((hlocked x).mp hx)]
    exact hs.typed x ((hlocked x).mp hx)

theorem flushed_safe (hs : Safe sb s) (hlock : s.Locked ip) :
    Safe sb (s.flushed sb ip) ∧ (∀ q, (s.flushed sb ip).place q = s.place q) ∧
      ∀ x, (s.flushed sb ip).inode x = s.inode x := by
  have hinode : ∀ x, (s.flushed sb ip).inode x = s.inode x := by
    intro x
    by_cases hx : x = ip
    · subst hx
      rw [inode_of_locked hlock]
      exact inode_of_locked (s := s.flushed sb x) hlock
    · exact inode_of_entry rfl (update_of_ne hx _ _)
  have hplace : ∀ q, (s.flushed sb ip).place q = s.place q := by
    intro q
    refine place_congr ?_
    rw [hinode]
    rfl
  exact ⟨hs.congr hplace rfl hinode fun x hx => hx, hplace, hinode⟩

theorem flushed_icache_self :
    ((s.setData ip data).flushed sb ip).icache ip = { s.icache ip with data := data } :=
  update_self ..

theorem flushed_icache_of_ne (hx : x ≠ ip) :
    ((s.setData ip data).flushed sb ip).icache x = s.icache x :=
  update_of_ne hx ..

theorem flushed_dinode_self : ((s.setData ip data).flushed sb ip).dinode ip = data := by
  show update s.dinode ip ((s.setData ip data).icache ip).data ip = data
  rw [update_self]
  show (update s.icache ip { s.icache ip with data := data } ip).data = data
  rw [update_self]

theorem flushed_dinode_of_ne (hx : x ≠ ip) :
    ((s.setData ip data).flushed sb ip).dinode x = s.dinode x :=
  update_of_ne hx ..

theorem Safe.update (hs : Safe sb s) (data : Dinode) (hlock : s.Locked ip)
    (haddrs : data.addrs = (s.icache ip).data.addrs) (htype : data.type = (s.icache ip).data.type)
    (hdense : ∀ bn, bn * bsize < data.size → bn < maxfile ∧ s.place (ip, slotOf bn) ≠ none) :
    Safe sb ((s.setData ip data).flushed sb ip) ∧
      ∀ q, ((s.setData ip data).flushed sb ip).place q = s.place q := by
  obtain ⟨hs1, hplace1⟩ := hs.setData hlock haddrs htype hdense
  have hlock1 : (s.setData ip data).Locked ip := by
    simp only [State.Locked, State.setData, State.setInode, Icache.set, update_self]
    exact hlock
  obtain ⟨hs2, hplace2, _⟩ := flushed_safe hs1 hlock1
  exact ⟨hs2, fun q => (hplace2 q).trans (hplace1 q)⟩

end

/-- The superblock that `mkfs` writes. -/
def mkfsDisk : Superblock := ⟨1000, 941, 200, 30, 32, 58⟩

def imageInode (sb : Superblock) (n ip : Nat) : Dinode where
  type :=
    if ip = 1 ∨ ip = 3 then .dir
    else if ip = 2 ∨ 4 ≤ ip ∧ ip < 4 + n then .file
    else .free
  major := 0
  minor := 0
  nlink := if ip = 2 then 29 else 1
  size := if ip = 1 ∨ ip = 3 then bsize else if ip = 2 then 5 else 0
  addrs := fun k => if k = 0 ∧ 1 ≤ ip ∧ ip ≤ 3 then sb.nmeta + ip - 1 else 0

/-- A file system with the root directory 1, a file 2, another directory 3 and `n` empty
files from 4 on. A directory fills one block, and all but 3 are in use. -/
def image (sb : Superblock) (dir : Nat → Block) (n : Nat) : State where
  bitmap := fun b => b < sb.nmeta + 3
  dinode := imageInode sb n
  block := fun b =>
    if b = sb.nmeta + 1 then fun off => UInt8.ofNat (off + 1) else dir (b + 1 - sb.nmeta)
  icache :=
    { entry := fun ip =>
        ⟨if ip = 1 ∨ ip = 2 ∨ 4 ≤ ip ∧ ip < 4 + n then 1 else 0, true, imageInode sb n ip⟩
      live := (Finset.range (4 + n)).filter fun ip => ip = 1 ∨ ip = 2 ∨ 4 ≤ ip
      mem_live := by
        intro ip
        rw [Finset.mem_filter, Finset.mem_range]
        dsimp only
        split
        · omega
        · omega }
  lh := ∅
  outstanding := 0

section Image

variable {sb : Superblock} {dir : Nat → Block} {n : Nat}

theorem image_inode (ip : Nat) : (image sb dir n).inode ip = imageInode sb n ip := by
  unfold State.inode
  split
  · rfl
  · rfl

theorem image_synced : Synced (image sb dir n) :=
  fun _ _ => rfl

theorem image_place (hboot : 0 < sb.nmeta) (ip k : Nat) : (image sb dir n).place (ip, k) =
    if k = 0 ∧ 1 ≤ ip ∧ ip ≤ 3 then some (sb.nmeta + ip - 1) else none := by
  have hslot : (imageInode sb n ip).slot (image sb dir n).block k =
      if k = 0 ∧ 1 ≤ ip ∧ ip ≤ 3 then sb.nmeta + ip - 1 else 0 := by
    unfold Dinode.slot
    split
    · rfl
    · rename_i hk
      have hzero : (imageInode sb n ip).addrs ndirect = 0 := by
        rw [imageInode]
        dsimp only
        rw [if_neg fun h => absurd h.1 (by decide)]
      rw [if_pos hzero, if_neg fun h => hk (by omega)]
  rw [State.place]
  dsimp only
  rw [image_inode, hslot]
  by_cases h : k = 0 ∧ 1 ≤ ip ∧ ip ≤ 3
  · rw [if_pos h, if_pos h, if_pos ⟨by rw [h.1]; decide, by omega⟩]
  · rw [if_neg h, if_neg h, if_neg fun hk => hk.2 rfl]

theorem image_safe (hboot : 0 < sb.nmeta) (hsize : sb.nmeta + 3 ≤ sb.size)
    (hninodes : 4 + n ≤ sb.ninodes) : Safe sb (image sb dir n) where
  owned := by
    refine ⟨fun p b hp => ?_, fun p q b hp hq => ?_, fun b hb => ?_⟩
    · rw [image_place hboot] at hp
      obtain ⟨_, heq⟩ := Option.ite_none_right_eq_some.mp hp
      cases heq
      omega
    · rw [image_place hboot] at hp hq
      obtain ⟨hp, heq⟩ := Option.ite_none_right_eq_some.mp hp
      obtain ⟨hq, heq'⟩ := Option.ite_none_right_eq_some.mp hq
      cases heq
      have hnumber := Option.some.inj heq'
      exact Prod.ext (by omega) (by omega)
    · rw [show ((image sb dir n).bitmap b = true) = (b < sb.nmeta + 3) from decide_eq_true_eq]
      constructor
      · intro hlt
        by_cases hmeta : b < sb.nmeta
        · exact Or.inl hmeta
        · refine Or.inr ⟨(b + 1 - sb.nmeta, 0), ?_⟩
          rw [image_place hboot, if_pos (by omega)]
          congr 1
          omega
      · rintro (hlt | ⟨p, hp⟩)
        · omega
        · rw [image_place hboot] at hp
          obtain ⟨_, heq⟩ := Option.ite_none_right_eq_some.mp hp
          cases heq
          omega
  empty := by
    intro ip k hfree
    rw [image_inode, imageInode] at hfree
    rw [image_place hboot, if_neg]
    rintro ⟨_, hip, hle⟩
    obtain rfl | rfl | rfl : ip = 1 ∨ ip = 2 ∨ ip = 3 := by omega
    all_goals
      simp at hfree
  limit := by
    intro ip hip
    rw [image_inode, imageInode]
    dsimp only
    rw [if_neg (by omega), if_neg (by omega)]
  dense := by
    intro ip bn hbn
    rw [image_inode, imageInode] at hbn
    dsimp only at hbn
    have hfirst : bn = 0 ∧ 1 ≤ ip ∧ ip ≤ 3 := by
      simp only [bsize] at hbn
      split at hbn
      · omega
      · split at hbn
        · omega
        · omega
    rw [hfirst.1, image_place hboot]
    exact ⟨by decide, by rw [if_pos ⟨rfl, hfirst.2⟩]; exact Option.some_ne_none _⟩
  typed := by
    intro ip hlock
    have hlive : ip = 1 ∨ ip = 2 ∨ 4 ≤ ip ∧ ip < 4 + n := by
      by_contra hnot
      exact absurd hlock.1 (by show ¬ 0 < (if _ then 1 else 0); rw [if_neg hnot]; decide)
    show (imageInode sb n ip).type ≠ .free
    rw [imageInode]
    dsimp only
    split
    · exact FileType.noConfusion
    · rw [if_pos (by omega)]
      exact FileType.noConfusion

end Image

end Xv6.Fs
