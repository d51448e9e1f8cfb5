import Xv6.Fs.Owner

/-! The contents of files: `readi` and `writei` over the bytes of the inode,
wherever the blocks lie. -/
namespace Xv6.Fs

/-- Byte `i` of the file, which is 0 where there is no block. -/
def State.byte (s : State) (ip : Nat) : Block := fun i =>
  match s.place (ip, slotOf (i / bsize)) with
  | some b => s.block b (i % bsize)
  | none => 0

def State.content (s : State) (ip : Nat) : List UInt8 :=
  (List.range (s.inode ip).size).map (s.byte ip)

def Covers (off n bn : Nat) : Prop :=
  0 < n ∧ off / bsize ≤ bn ∧ bn * bsize < off + n

instance (off n bn : Nat) : Decidable (Covers off n bn) :=
  inferInstanceAs (Decidable (_ ∧ _))

def slotsOf (off n : Nat) : Finset Nat :=
  ((Finset.range maxfile).filter (Covers off n)).biUnion slotsFor

def Wraps (off n : Nat) : Prop :=
  (off + n) % uintSize < off

section Bytes

variable {s s' : State} {sb : Superblock} {ip off : Nat} {old : Block} {src : List UInt8}

theorem wraps_iff {n : Nat} (hoff : off < uintSize) (hn : n < uintSize) :
    Wraps off n ↔ uintSize ≤ off + n := by
  simp only [Wraps, uintSize] at *
  omega

theorem byte_of_place {b i : Nat} (h : s.place (ip, slotOf (i / bsize)) = some b) :
    s.byte ip i = s.block b (i % bsize) := by
  rw [State.byte, h]

theorem byte_congr {x : Nat} (hplace : ∀ q, s'.place q = s.place q) (hblock : s'.block = s.block) :
    s'.byte x = s.byte x := by
  funext i
  rw [State.byte, State.byte, hplace, hblock]

theorem Fills.byte {slots : Finset Nat} (h : Fills sb ip slots s s') (x : Nat) :
    s'.byte x = s.byte x := by
  funext i
  cases hold : s.place (x, slotOf (i / bsize)) with
  | some b =>
    rw [byte_of_place hold, byte_of_place (h.mono _ b hold), h.data _ b (slotOf_ne _) hold]
  | none =>
    rw [State.byte, State.byte, hold]
    cases hnew : s'.place (x, slotOf (i / bsize)) with
    | none => rfl
    | some b =>
      have hx : x = ip := by
        by_contra hx
        rw [h.others _ hx, hold] at hnew
        cases hnew
      subst hx
      simp only [h.fresh _ b (slotOf_ne _) hold hnew, zeroBlock]

theorem fill_of_lt {i : Nat} (h : i < off) : fill old off src i = old i :=
  if_neg (Nat.not_le.mpr h)

theorem fill_of_ge {i : Nat} (h : off + src.length ≤ i) : fill old off src i = old i := by
  rw [fill, if_pos (by omega), List.getElem?_eq_none (by omega), Option.getD_none]

theorem fill_add {j : Nat} (h : j < src.length) : fill old off src (off + j) = src[j] := by
  rw [fill, if_pos (by omega), Nat.add_sub_cancel_left, List.getElem?_eq_getElem h,
    Option.getD_some]

theorem fill_nil : fill old off [] = old := by
  funext i
  rcases Nat.lt_or_ge i off with h | h
  · exact fill_of_lt h
  · exact fill_of_ge h

theorem fill_take_drop {m : Nat} (hm : m ≤ src.length) :
    fill (fill old off (src.take m)) (off + m) (src.drop m) = fill old off src := by
  have htake : (src.take m).length = m := List.length_take_of_le hm
  have hdrop : (src.drop m).length = src.length - m := List.length_drop
  funext i
  by_cases hbefore : i < off
  · rw [fill_of_lt (by omega), fill_of_lt hbefore, fill_of_lt hbefore]
  by_cases hafter : off + src.length ≤ i
  · rw [fill_of_ge (by omega), fill_of_ge (by omega), fill_of_ge hafter]
  obtain ⟨j, rfl⟩ : ∃ j, i = off + j := ⟨i - off, by omega⟩
  rw [fill_add (by omega)]
  by_cases hj : j < m
  · rw [fill_of_lt (by omega), fill_add (by omega), List.getElem_take]
  · obtain ⟨l, rfl⟩ : ∃ l, j = m + l := ⟨j - m, by omega⟩
    rw [← Nat.add_assoc, fill_add (by omega), List.getElem_drop]

theorem store_byte {b : Nat} (hs : Safe sb s) (hb : s.place (ip, slotOf (off / bsize)) = some b)
    (hsrc : off % bsize + src.length ≤ bsize) :
    let s' := (s.setBlock b (fill (s.block b) (off % bsize) src)).logged b
    s'.byte ip = fill (s.byte ip) off src ∧ ∀ x, x ≠ ip → s'.byte x = s.byte x := by
  intro s'
  have hplace : ∀ q, s'.place q = s.place q := store_place hs hb
  have hself : s'.block b = fill (s.block b) (off % bsize) src := Function.update_self ..
  -- the bytes of every other place
  have hother : ∀ x i, (x, slotOf (i / bsize)) ≠ (ip, slotOf (off / bsize)) →
      s'.byte x i = s.byte x i := by
    intro x i hne
    rw [State.byte, State.byte, hplace]
    cases hc : s.place (x, slotOf (i / bsize)) with
    | none => rfl
    | some c =>
      have hcb : c ≠ b := by
        rintro rfl
        exact hne (hs.owned.once _ _ _ hc hb)
      show Function.update s.block b _ c _ = s.block c _
      rw [Function.update_of_ne hcb]
  refine ⟨?_, fun x hx => funext fun i => hother x i fun heq => hx (Prod.mk.inj heq).1⟩
  funext i
  have hdiv := Nat.div_add_mod off bsize
  have hdiv' := Nat.div_add_mod i bsize
  have hmod := Nat.mod_lt i (show 0 < bsize by decide)
  by_cases hi : i / bsize = off / bsize
  · rw [byte_of_place (by rw [hplace, hi]; exact hb), hself]
    rw [hi] at hdiv'
    by_cases hbefore : i < off
    · rw [fill_of_lt hbefore, fill_of_lt (by omega), byte_of_place (by rw [hi]; exact hb)]
    by_cases hafter : off + src.length ≤ i
    · rw [fill_of_ge hafter, fill_of_ge (by omega), byte_of_place (by rw [hi]; exact hb)]
    obtain ⟨j, rfl⟩ : ∃ j, i = off + j := ⟨i - off, by omega⟩
    have hmodeq : (off + j) % bsize = off % bsize + j := by omega
    rw [hmodeq, fill_add (by omega), fill_add (by omega)]
  · have hslot : slotOf (i / bsize) ≠ slotOf (off / bsize) := by
      unfold slotOf
      split
      · split
        · exact hi
        · omega
      · split
        · omega
        · omega
    rw [hother ip i fun heq => hslot (Prod.mk.inj heq).2]
    rcases Nat.lt_or_ge i off with hbefore | hbefore
    · rw [fill_of_lt hbefore]
    · have hlt : off / bsize < i / bsize :=
        Nat.lt_of_le_of_ne (Nat.div_le_div_right hbefore) (Ne.symm hi)
      have hmul := Nat.mul_le_mul_left bsize hlt
      rw [Nat.mul_succ] at hmul
      rw [fill_of_ge (by omega)]

end Bytes

section Loops

variable {s s' : State} {sb : Superblock} {ip off n fuel : Nat} {src : List UInt8}
  {slots : Finset Nat}

theorem mem_slotsOf {k : Nat} : k ∈ slotsOf off n ↔
    ∃ bn, (bn < maxfile ∧ Covers off n bn) ∧ k ∈ slotsFor bn := by
  simp only [slotsOf, Finset.mem_biUnion, Finset.mem_filter, Finset.mem_range]

theorem lacking_eq_empty (h : ∀ bn, Covers off n bn → s.place (ip, slotOf bn) ≠ none) :
    lacking s ip (slotsOf off n) = ∅ := by
  refine Finset.filter_eq_empty_iff.mpr fun k hk hlacks => ?_
  obtain ⟨bn, hbn, hslot⟩ := mem_slotsOf.mp hk
  have hthere := h bn hbn.2
  rw [Option.isNone_iff_eq_none] at hlacks
  unfold slotsFor at hslot
  split at hslot
  · rename_i hdirect
    rw [Finset.mem_singleton] at hslot
    rw [slotOf_of_lt hdirect, ← hslot] at hthere
    exact hthere hlacks
  · rename_i hdirect
    rcases Finset.mem_insert.mp hslot with rfl | hslot
    · obtain ⟨b, hb⟩ := Option.ne_none_iff_exists'.mp hthere
      rw [slotOf_of_not_lt hdirect] at hb
      obtain ⟨ind, hind⟩ := place_ndirect_of_entry hb
      rw [hind] at hlacks
      cases hlacks
    · rw [Finset.mem_singleton.mp hslot] at hlacks
      exact hthere hlacks

/-- With all blocks there, they are what a write logs. -/
theorem mem_footprint_of_present {c : Nat}
    (h : ∀ bn, Covers off n bn → bn < maxfile ∧ s.place (ip, slotOf bn) ≠ none) :
    c ∈ footprint sb s ip (slotsOf off n) ↔
      ∃ bn, Covers off n bn ∧ s.place (ip, slotOf bn) = some c := by
  have hnone := lacking_eq_empty fun bn hbn => (h bn hbn).2
  have hnew : newBlocks sb s ip (slotsOf off n) = [] := by
    rw [newBlocks, hnone, Finset.card_empty, List.take_zero]
  rw [mem_footprint, hnew, hnone]
  constructor
  · rintro (⟨k, hk, hne, hc⟩ | hc | ⟨a, ha, _⟩ | ⟨⟨k, hk, _⟩, _⟩)
    · obtain ⟨bn, hbn, hslot⟩ := mem_slotsOf.mp hk
      refine ⟨bn, hbn.2, ?_⟩
      unfold slotsFor at hslot
      split at hslot
      · rename_i hdirect
        rw [slotOf_of_lt hdirect, ← Finset.mem_singleton.mp hslot]
        exact hc
      · rw [Finset.mem_insert, or_iff_right hne, Finset.mem_singleton] at hslot
        rw [← hslot]
        exact hc
    · cases hc
    · cases ha
    · cases hk
  · rintro ⟨bn, hbn, hc⟩
    exact Or.inl ⟨slotOf bn, mem_slotsOf.mpr ⟨bn, ⟨(h bn hbn).1, hbn⟩, slotOf_mem bn⟩,
      slotOf_ne bn, hc⟩

theorem covers_next {m bn : Nat} (hm : m = min n (bsize - off % bsize)) (h : Covers off n bn)
    (hne : bn ≠ off / bsize) : Covers (off + m) (n - m) bn := by
  simp only [Covers, bsize] at *
  omega

theorem covers_of_next {m bn : Nat} (hm : m = min n (bsize - off % bsize))
    (h : Covers (off + m) (n - m) bn) : Covers off n bn := by
  simp only [Covers, bsize] at *
  omega

theorem covers_first (hn : 0 < n) : Covers off n (off / bsize) := by
  simp only [Covers, bsize]
  omega

theorem not_covers_zero {bn : Nat} : ¬ Covers off 0 bn :=
  fun h => Nat.lt_irrefl 0 h.1

theorem readLoop_bytes (hlock : s.Locked ip) (hfuel : n ≤ fuel)
    (hthere : ∀ bn, Covers off n bn → bn < maxfile ∧ s.place (ip, slotOf bn) ≠ none) :
    readLoop sb ip fuel s off n = some ((List.range n).map fun i => s.byte ip (off + i), s) := by
  induction fuel generalizing off n with
  | zero =>
    obtain rfl := Nat.le_zero.mp hfuel
    rfl
  | succ fuel ih =>
    unfold readLoop
    split
    · rename_i hn
      rw [hn]
      rfl
    · rename_i hn
      have hpos : 0 < n := Nat.pos_of_ne_zero hn
      obtain ⟨hbn, hne⟩ := hthere _ (covers_first hpos)
      obtain ⟨b, hb⟩ := Option.ne_none_iff_exists'.mp hne
      have hm : 0 < min n (bsize - off % bsize) := by
        simp only [bsize]
        omega
      rw [bmap_of_place hlock hbn hb]
      dsimp only [Option.bind_some]
      rw [ih (by omega) fun bn hcovers => hthere bn (covers_of_next rfl hcovers)]
      simp only [Option.map_some, Option.some.injEq, Prod.mk.injEq, and_true]
      have hfirst : (List.range (min n (bsize - off % bsize))).map
            (fun i => s.block b (off % bsize + i)) =
          (List.range (min n (bsize - off % bsize))).map fun i => s.byte ip (off + i) := by
        refine List.map_congr_left fun i hi => ?_
        have hlt := List.mem_range.mp hi
        have hblock : (off + i) / bsize = off / bsize ∧ (off + i) % bsize = off % bsize + i := by
          simp only [bsize] at *
          omega
        rw [byte_of_place (by rw [hblock.1]; exact hb), hblock.2]
      have hsplit : n = min n (bsize - off % bsize) + (n - min n (bsize - off % bsize)) := by
        omega
      rw [hfirst]
      conv_rhs => rw [hsplit, List.range_add, List.map_append, List.map_map]
      simp only [Function.comp_def, Nat.add_assoc]

/-- What `writeLoop` does: the bytes of `src` from `off` on, and new blocks for `ip`
only. -/
structure Writes (sb : Superblock) (ip : Nat) (slots : Finset Nat) (off : Nat) (src : List UInt8)
    (s s' : State) : Prop extends Advances sb ip slots s s' where
  safe : Safe sb s'
  frame : Frame ip s s'
  mono : ∀ q b, s.place q = some b → s'.place q = some b
  places : ∀ q, q.1 ≠ ip → s'.place q = s.place q
  self : s'.byte ip = fill (s.byte ip) off src
  others : ∀ x, x ≠ ip → s'.byte x = s.byte x

theorem Writes.nil (hs : Safe sb s) : Writes sb ip slots off [] s s :=
  ⟨Advances.refl sb ip slots s, hs, Frame.refl ip s, fun _ _ h => h, fun _ _ => rfl,
    fill_nil.symm, fun _ _ => rfl⟩

theorem Writes.trans {s1 : State} {m : Nat} (hm : m ≤ src.length)
    (h : Writes sb ip slots off (src.take m) s s1)
    (h' : Writes sb ip slots (off + m) (src.drop m) s1 s') : Writes sb ip slots off src s s' where
  toAdvances := h.toAdvances.trans h'.toAdvances
  safe := h'.safe
  frame := h.frame.trans h'.frame
  mono := fun q b hq => h'.mono q b (h.mono q b hq)
  places := fun q hq => (h'.places q hq).trans (h.places q hq)
  self := by rw [h'.self, h.self, fill_take_drop hm]
  others := fun x hx => (h'.others x hx).trans (h.others x hx)

theorem Fills.writes {b : Nat} (h : Fills sb ip slots s s')
    (hplace : s'.place (ip, slotOf (off / bsize)) = some b) (hmem : slotOf (off / bsize) ∈ slots)
    (hsrc : off % bsize + src.length ≤ bsize) :
    Writes sb ip slots off src s
      ((s'.setBlock b (fill (s'.block b) (off % bsize) src)).logged b) := by
  obtain ⟨hself, hothers⟩ := store_byte h.safe hplace hsrc
  refine ⟨h.toAdvances.trans (store_advances h.safe hplace hmem), store_safe h.safe hplace,
    h.frame.trans (Frame.of_icache rfl rfl), fun q c hq => ?_, fun q hq => ?_, ?_,
    fun x hx => ?_⟩
  · rw [store_place h.safe hplace]
    exact h.mono q c hq
  · rw [store_place h.safe hplace, h.others q hq]
  · rw [hself, h.byte]
  · rw [hothers x hx, h.byte]

theorem turn_length (off : Nat) (src : List UInt8) :
    off % bsize + (src.take (min src.length (bsize - off % bsize))).length ≤ bsize := by
  have hmod := Nat.mod_lt off (show 0 < bsize by decide)
  rw [List.length_take]
  omega

theorem turn_fuel (off : Nat) (hsrc : src ≠ []) (hfuel : src.length ≤ fuel + 1) :
    (src.drop (min src.length (bsize - off % bsize))).length ≤ fuel := by
  have hlen : 0 < src.length := List.length_pos_iff.mpr hsrc
  rw [List.length_drop]
  simp only [bsize]
  omega

theorem writeLoop_writes (hsb : sb.Sane) (hs : Safe sb s) (hlock : s.Locked ip)
    (hfuel : src.length ≤ fuel) (hslots : ∀ bn, Covers off src.length bn → slotsFor bn ⊆ slots)
    (h : writeLoop sb ip fuel s off src = some s') :
    Writes sb ip slots off src s s' ∧
      (∀ bn, Covers off src.length bn →
        bn < maxfile ∧ ∃ b, s'.place (ip, slotOf bn) = some b ∧ b ∈ s'.lh) ∧
      ((∀ bn, Covers off src.length bn → s.place (ip, slotOf bn) ≠ none) →
        s'.icache = s.icache) := by
  induction fuel generalizing s off src with
  | zero =>
    cases h
    obtain rfl := List.length_eq_zero_iff.mp (Nat.le_zero.mp hfuel)
    exact ⟨Writes.nil hs, fun bn hbn => absurd hbn not_covers_zero, fun _ => rfl⟩
  | succ fuel ih =>
    unfold writeLoop at h
    split at h
    · rename_i hnil
      cases h
      rw [hnil]
      exact ⟨Writes.nil hs, fun bn hbn => absurd hbn not_covers_zero, fun _ => rfl⟩
    · rename_i hsrc
      have hfirst := hslots _ (covers_first (List.length_pos_iff.mpr hsrc))
      obtain ⟨⟨b, s1⟩, hmap, hstore⟩ := Option.bind_eq_some_iff.mp h
      obtain ⟨s2, hlog, hrest⟩ := Option.bind_eq_some_iff.mp hstore
      obtain ⟨_, _, rfl⟩ := logWrite_eq_some.mp hlog
      obtain ⟨hfills, hplace, hmax, hsame⟩ := bmap_fills hsb hs hlock hfirst hmap
      have hturn := hfills.writes hplace (hfirst (slotOf_mem _)) (turn_length off src)
      have hlock2 := (hturn.frame.locked ip).mpr hlock
      obtain ⟨hwrites, hthere, hsame'⟩ := ih hturn.safe hlock2 (turn_fuel off hsrc hfuel)
        (fun bn hbn => hslots bn (covers_of_next rfl (by rwa [List.length_drop] at hbn))) hrest
      rw [List.length_drop] at hthere hsame'
      refine ⟨hturn.trans (Nat.min_le_left ..) hwrites, fun bn hbn => ?_, fun hall => ?_⟩
      · by_cases hne : bn = off / bsize
        · rw [hne]
          exact ⟨hmax, b, hwrites.mono _ b (by rw [store_place hfills.safe hplace]; exact hplace),
            hwrites.logged (Finset.mem_insert_self ..)⟩
        · exact hthere bn (covers_next rfl hbn hne)
      · -- the blocks are there, and `bmap` changes nothing
        have heq := hsame (hall _ (covers_first (List.length_pos_iff.mpr hsrc)))
        subst heq
        refine hsame' fun bn hbn => ?_
        obtain ⟨c, hc⟩ := Option.ne_none_iff_exists'.mp (hall bn (covers_of_next rfl hbn))
        rw [hturn.mono _ c hc]
        exact Option.some_ne_none c

theorem writeLoop_total (hsb : sb.Sane) (hs : Safe sb s) (hlock : s.Locked ip)
    (hfuel : src.length ≤ fuel) (hready : Ready sb s ip slots)
    (hslots : ∀ bn, Covers off src.length bn → bn < maxfile ∧ slotsFor bn ⊆ slots) :
    ∃ s', writeLoop sb ip fuel s off src = some s' := by
  induction fuel generalizing s off src with
  | zero => exact ⟨s, rfl⟩
  | succ fuel ih =>
    unfold writeLoop
    split
    · exact ⟨s, rfl⟩
    · rename_i hsrc
      obtain ⟨hbn, hsub⟩ := hslots _ (covers_first (List.length_pos_iff.mpr hsrc))
      obtain ⟨b, s1, hmap⟩ := bmap_total hsb hs hlock hbn hsub hready
      obtain ⟨hfills, hplace, _, _⟩ := bmap_fills hsb hs hlock hsub hmap
      have hturn := hfills.writes hplace (hsub (slotOf_mem _)) (turn_length off src)
      rw [hmap, Option.bind_some]
      dsimp only
      rw [(hfills.ready hready).store]
      refine ih hturn.safe ((hturn.frame.locked ip).mpr hlock) (turn_fuel off hsrc hfuel)
        (hturn.ready hready) fun bn hcovers => ?_
      rw [List.length_drop] at hcovers
      exact hslots bn (covers_of_next rfl hcovers)

theorem writeLoop_nil (sb : Superblock) (ip fuel : Nat) (s : State) (off : Nat) :
    writeLoop sb ip fuel s off [] = some s := by
  cases fuel with
  | zero => rfl
  | succ fuel => exact if_pos rfl

/-- The length of a write without its last block. -/
def lastStart (off n : Nat) : Nat :=
  (off + n - 1) / bsize * bsize - off

theorem covers_lastStart {bn : Nat} (h : Covers off (lastStart off n) bn) : Covers off n bn := by
  simp only [Covers, lastStart, bsize] at *
  omega

theorem lastStart_next (h : bsize - off % bsize < n) : lastStart off n =
    bsize - off % bsize + lastStart (off + (bsize - off % bsize)) (n - (bsize - off % bsize)) := by
  simp only [lastStart, bsize] at *
  omega

theorem covers_split {m bn : Nat} (hm : m = bsize - off % bsize) :
    Covers off (m + n) bn ↔ bn = off / bsize ∨ Covers (off + m) n bn := by
  simp only [Covers, bsize] at *
  omega

/-- Without new blocks the last block that is logged is the last one written. -/
theorem writeLoop_present (hs : Safe sb s) (hlock : s.Locked ip) (hsrc : src ≠ [])
    (hfuel : src.length ≤ fuel)
    (hthere : ∀ bn, Covers off src.length bn → bn < maxfile ∧ s.place (ip, slotOf bn) ≠ none) :
    (∃ s', writeLoop sb ip fuel s off src = some s') ↔ 0 < s.outstanding ∧
      (s.lh ∪ footprint sb s ip (slotsOf off (lastStart off src.length))).card < sb.logcap := by
  induction fuel generalizing s off src with
  | zero => exact absurd (List.length_eq_zero_iff.mp (Nat.le_zero.mp hfuel)) hsrc
  | succ fuel ih =>
    have hlen := List.length_pos_iff.mpr hsrc
    obtain ⟨hbn, hne⟩ := hthere _ (covers_first hlen)
    obtain ⟨b, hb⟩ := Option.ne_none_iff_exists'.mp hne
    unfold writeLoop
    rw [if_neg hsrc, bmap_of_place hlock hbn hb]
    simp only [Option.bind_some, Option.bind_eq_some_iff, logWrite_eq_some]
    generalize fill (s.block b) _ _ = data
    by_cases hlast : src.length ≤ bsize - off % bsize
    · -- the only block of the write
      have hstart : lastStart off src.length = 0 := by
        simp only [lastStart, bsize] at *
        omega
      have hempty : footprint sb s ip (slotsOf off 0) = ∅ := by
        refine Finset.eq_empty_of_forall_notMem fun c hc => ?_
        obtain ⟨bn, hcovers, _⟩ :=
          (mem_footprint_of_present fun bn h => absurd h not_covers_zero).mp hc
        exact not_covers_zero hcovers
      rw [Nat.min_eq_left hlast, List.drop_length, hstart, hempty, Finset.union_empty]
      simp only [writeLoop_nil]
      exact ⟨fun ⟨_, _, ⟨hroom, hopen, _⟩, _⟩ => ⟨hopen, hroom⟩,
        fun ⟨hopen, hroom⟩ => ⟨_, _, ⟨hroom, hopen, rfl⟩, rfl⟩⟩
    · have hmin := Nat.min_eq_right (Nat.le_of_not_le hlast)
      have hnext := lastStart_next (Nat.lt_of_not_le hlast)
      have hfuel' := turn_fuel off hsrc hfuel
      rw [hmin] at hfuel' ⊢
      generalize hm : bsize - off % bsize = m at *
      have hplace : ∀ q, ((s.setBlock b data).logged b).place q = s.place q := store_place hs hb
      have hdrop : src.drop m ≠ [] := fun h => hlast (List.drop_eq_nil_iff.mp h)
      have hlength : (src.drop m).length = src.length - m := List.length_drop
      have hrest := ih (store_safe hs hb) hlock hdrop hfuel' fun bn hbn => by
        rw [hlength] at hbn
        rw [hplace]
        exact hthere bn (covers_of_next (by rw [hm, hmin]) hbn)
      -- the first block and those behind it
      have hsplit : insert b s.lh ∪ footprint sb ((s.setBlock b data).logged b) ip
          (slotsOf (off + m) (lastStart (off + m) (src.length - m))) =
          s.lh ∪ footprint sb s ip (slotsOf off (lastStart off src.length)) := by
        rw [(footprint_congr hplace rfl _).2.2]
        ext c
        have hbelow : ∀ bn, Covers (off + m) (lastStart (off + m) (src.length - m)) bn →
            Covers off (lastStart off src.length) bn := fun bn h => by
          rw [hnext]
          exact (covers_split hm.symm).mpr (Or.inr h)
        rw [Finset.mem_union, Finset.mem_union, Finset.mem_insert,
          mem_footprint_of_present fun bn h => hthere bn (covers_lastStart (hbelow bn h)),
          mem_footprint_of_present fun bn h => hthere bn (covers_lastStart h), hnext]
        simp only [covers_split hm.symm, or_and_right, exists_or, exists_eq_left, hb,
          Option.some.injEq]
        grind
      have hlh : ((s.setBlock b data).logged b).lh = insert b s.lh := rfl
      rw [hlength, hlh, hsplit] at hrest
      constructor
      · rintro ⟨s', s2, ⟨_, hopen, rfl⟩, hloop⟩
        exact ⟨hopen, (hrest.mp ⟨s', hloop⟩).2⟩
      · rintro ⟨hopen, hroom⟩
        obtain ⟨s', hloop⟩ := hrest.mpr ⟨hopen, hroom⟩
        exact ⟨s', _, ⟨Nat.lt_of_le_of_lt (Finset.card_le_card Finset.subset_union_left) hroom,
          hopen, rfl⟩, hloop⟩

end Loops

section Calls

variable {s s' : State} {sb : Superblock} {ip off n : Nat} {src : List UInt8}

theorem content_length (s : State) (ip : Nat) : (s.content ip).length = (s.inode ip).size := by
  rw [State.content, List.length_map, List.length_range]

theorem covers_below {size bn : Nat} (h : Covers off n bn) (hsize : off + n ≤ size) :
    bn * bsize < size :=
  Nat.lt_of_lt_of_le h.2.2 hsize

theorem readi_content (device : List UInt8) (hs : Safe sb s) (hlock : s.Locked ip)
    (htype : (s.inode ip).type ≠ .dev) (hoff : off ≤ (s.inode ip).size)
    (hwrap : off + n < uintSize) :
    readi sb device s ip off n = some (some (((s.content ip).drop off).take n), s) := by
  rw [inode_of_locked hlock] at htype hoff
  unfold readi
  dsimp only
  rw [if_neg htype, if_neg (by omega)]
  have hbound : off + (if (s.icache ip).data.size < off + n then (s.icache ip).data.size - off
      else n) ≤ (s.inode ip).size := by
    rw [inode_of_locked hlock]
    split
    · omega
    · omega
  rw [readLoop_bytes hlock le_rfl fun bn hcovers => hs.dense ip bn (covers_below hcovers hbound)]
  simp only [Option.map_some, Option.some.injEq, Prod.mk.injEq, and_true]
  refine List.ext_getElem ?_ fun i h1 h2 => ?_
  · rw [List.length_map, List.length_range, List.length_take, List.length_drop, content_length,
      inode_of_locked hlock]
    split
    · omega
    · omega
  · simp only [State.content, List.getElem_map, List.getElem_range, List.getElem_take,
      List.getElem_drop]

theorem content_of_fill {size size' : Nat} {old : Block} (hoff : off ≤ size)
    (hsize : size' = max size (off + src.length)) :
    (List.range size').map (fill old off src) =
      ((List.range size).map old).take off ++ src ++
        ((List.range size).map old).drop (off + src.length) := by
  refine List.ext_getElem ?_ fun i h1 h2 => ?_
  · simp only [List.length_append, List.length_take, List.length_drop, List.length_map,
      List.length_range]
    omega
  · rw [List.length_map, List.length_range] at h1
    rw [List.getElem_map, List.getElem_range]
    have htake : (((List.range size).map old).take off).length = off := by
      rw [List.length_take, List.length_map, List.length_range, Nat.min_eq_left hoff]
    by_cases hbefore : i < off
    · rw [fill_of_lt hbefore, List.getElem_append_left (by rw [List.length_append]; omega),
        List.getElem_append_left (by omega), List.getElem_take, List.getElem_map,
        List.getElem_range]
    · by_cases hafter : off + src.length ≤ i
      · rw [fill_of_ge hafter, List.getElem_append_right (by rw [List.length_append]; omega),
          List.getElem_drop, List.getElem_map, List.getElem_range]
        congr 1
        rw [List.length_append]
        omega
      · obtain ⟨j, rfl⟩ : ∃ j, i = off + j := ⟨i - off, by omega⟩
        rw [fill_add (by omega), List.getElem_append_left (by rw [List.length_append]; omega),
          List.getElem_append_right (by omega)]
        congr 1
        omega

theorem readi_fails {device : List UInt8} (hlock : s.Locked ip)
    (htype : (s.inode ip).type ≠ .dev) (h : (s.inode ip).size < off ∨ uintSize ≤ off + n) :
    readi sb device s ip off n = some (none, s) := by
  rw [inode_of_locked hlock] at htype h
  unfold readi
  dsimp only
  rw [if_neg htype, if_pos h]

theorem writei_fails (hlock : s.Locked ip) (htype : (s.inode ip).type ≠ .dev)
    (h : (s.inode ip).size < off ∨ uintSize ≤ off + src.length ∨
      maxfile * bsize < off + src.length) :
    writei sb s ip src off = some (none, s) := by
  rw [inode_of_locked hlock] at htype h
  unfold writei
  dsimp only
  rw [if_neg htype]
  split
  · rfl
  · rename_i hnot
    rw [if_pos (by omega)]

/-- The blocks that `writei` logs. -/
def writeBlocks (sb : Superblock) (s : State) (ip off n : Nat) : Finset Nat :=
  footprint sb s ip (slotsOf off n) ∪
    if 0 < n ∧ (s.inode ip).size < off + n then {iblock sb ip} else ∅

/-- A transaction is open, and the log has an entry for the last block that `writei` logs:
that of the inode, or the last data block if the file does not grow. -/
def Loggable (sb : Superblock) (s : State) (ip off n : Nat) : Prop :=
  n = 0 ∨ 0 < s.outstanding ∧ (s.lh ∪ footprint sb s ip (slotsOf off
    (if (s.inode ip).size < off + n then n else lastStart off n))).card < sb.logcap

/-- What a `writei` that does not fail does. -/
structure Overwrites (sb : Superblock) (ip off : Nat) (src : List UInt8) (s s' : State) :
    Prop where
  safe : Safe sb s'
  others : ∀ x, x ≠ ip → s'.icache x = s.icache x ∧ s'.dinode x = s.dinode x
  ref : (s'.icache ip).ref = (s.icache ip).ref
  valid : (s'.icache ip).valid = (s.icache ip).valid
  fields : (s'.icache ip).data =
    { (s.icache ip).data with
      size := max (s.icache ip).data.size (off + src.length)
      addrs := (s'.icache ip).data.addrs }
  places : ∀ q, q.1 ≠ ip → s'.place q = s.place q
  self : s'.byte ip = fill (s.byte ip) off src
  bytes : ∀ x, x ≠ ip → s'.byte x = s.byte x
  synced : Synced s → Synced s'
  lh : s'.lh = s.lh ∪ writeBlocks sb s ip off src.length
  stored : ∀ bn, Covers off src.length bn → ∃ b, s'.place (ip, slotOf bn) = some b ∧ b ∈ s'.lh
  outstanding : s'.outstanding = s.outstanding

section

variable (h : Overwrites sb ip off src s s')
include h

theorem Overwrites.locked (x : Nat) :
    s'.Locked x ↔ s.Locked x := by
  unfold State.Locked
  by_cases hx : x = ip
  · rw [hx, h.ref, h.valid]
  · rw [(h.others x hx).1]

theorem Overwrites.inode_of_ne {x : Nat} (hx : x ≠ ip) :
    s'.inode x = s.inode x :=
  inode_of_entry (h.others x hx).1 (h.others x hx).2

theorem Overwrites.inode_self (hlock : s.Locked ip) :
    s'.inode ip =
      { s.inode ip with
        size := max (s.inode ip).size (off + src.length)
        addrs := (s'.icache ip).data.addrs } := by
  rw [inode_of_locked ((h.locked ip).mpr hlock), inode_of_locked hlock]
  exact h.fields

theorem Overwrites.content_self (hlock : s.Locked ip)
    (hoff : off ≤ (s.inode ip).size) :
    s'.content ip = (s.content ip).take off ++ src ++ (s.content ip).drop (off + src.length) := by
  rw [State.content, h.self]
  refine content_of_fill hoff ?_
  rw [h.inode_self hlock]

theorem Overwrites.content_of_ne {x : Nat} (hx : x ≠ ip) :
    s'.content x = s.content x := by
  rw [State.content, State.content, h.inode_of_ne hx, h.bytes x hx]

end

/-- All that is to be logged has been logged. -/
theorem Writes.lh (h : Writes sb ip (slotsOf off n) off src s s')
    (hthere : ∀ bn, Covers off n bn →
      bn < maxfile ∧ ∃ b, s'.place (ip, slotOf bn) = some b ∧ b ∈ s'.lh) :
    s'.lh = s.lh ∪ footprint sb s ip (slotsOf off n) ∧ Room sb s ip (slotsOf off n) := by
  have hpresent : ∀ bn, Covers off n bn → bn < maxfile ∧ s'.place (ip, slotOf bn) ≠ none := by
    intro bn hbn
    obtain ⟨hmax, b, hb, _⟩ := hthere bn hbn
    exact ⟨hmax, by rw [hb]; exact Option.some_ne_none b⟩
  constructor
  · rw [← h.log]
    refine (Finset.union_eq_left.mpr fun c hc => ?_).symm
    obtain ⟨bn, hbn, hplace⟩ := (mem_footprint_of_present hpresent).mp hc
    obtain ⟨_, b, hb, hlogged⟩ := hthere bn hbn
    rw [hb] at hplace
    cases hplace
    exact hlogged
  · have hroom := h.room
    rw [lacking_eq_empty fun bn hbn => (hpresent bn hbn).2, Finset.card_empty] at hroom
    unfold Room
    omega

theorem Writes.update (h : Writes sb ip (slotsOf off src.length) off src s s')
    (hlock : s.Locked ip)
    (hthere : ∀ bn, Covers off src.length bn →
      bn < maxfile ∧ ∃ b, s'.place (ip, slotOf bn) = some b ∧ b ∈ s'.lh)
    (hsrc : src ≠ []) (hoff : off ≤ (s.icache ip).data.size)
    (hsize : (s.icache ip).data.size < off + src.length) :
    Overwrites sb ip off src s
      ((s'.setData ip { (s'.icache ip).data with size := off + src.length }).flushed sb ip) := by
  have hlock' := (h.frame.locked ip).mpr hlock
  have hsizes : (s'.icache ip).data.size = (s.icache ip).data.size := by
    rw [h.frame.fields]
  have hdense : ∀ bn, bn * bsize < off + src.length →
      bn < maxfile ∧ s'.place (ip, slotOf bn) ≠ none := by
    intro bn hbn
    by_cases hold : bn * bsize < (s'.icache ip).data.size
    · rw [← inode_of_locked hlock'] at hold
      exact h.safe.dense ip bn hold
    · have hle : off ≤ bn * bsize := by omega
      obtain ⟨hmax, b, hb, _⟩ := hthere bn ⟨by omega, Nat.le_trans (Nat.div_le_div_right hle)
        (by rw [Nat.mul_div_cancel _ (by decide)]), hbn⟩
      exact ⟨hmax, by rw [hb]; exact Option.some_ne_none b⟩
  obtain ⟨hs1, hplace1⟩ :=
    h.safe.update { (s'.icache ip).data with size := off + src.length } hlock' rfl rfl hdense
  refine ⟨hs1, fun x hx => ⟨?_, ?_⟩, ?_, ?_, ?_, fun q hq => ?_, ?_, fun x hx => ?_,
    fun hsynced x hx => ?_, ?_, fun bn hbn => ?_, h.outstanding⟩
  · rw [flushed_icache_of_ne hx]
    exact h.frame.others x hx
  · rw [flushed_dinode_of_ne hx, h.frame.dinode]
  · rw [flushed_icache_self]
    exact h.frame.ref
  · rw [flushed_icache_self]
    exact h.frame.valid
  · rw [flushed_icache_self]
    dsimp only
    rw [h.frame.fields, Nat.max_eq_right (by omega)]
  · rw [hplace1, h.places q hq]
  · rw [byte_congr hplace1 rfl]
    exact h.self
  · rw [byte_congr hplace1 rfl]
    exact h.others x hx
  · by_cases hxip : x = ip
    · rw [hxip, flushed_icache_self, flushed_dinode_self]
    · rw [flushed_icache_of_ne hxip, flushed_dinode_of_ne hxip, h.frame.others x hxip,
        h.frame.dinode]
      refine hsynced x ?_
      unfold State.Locked at hx ⊢
      rw [flushed_icache_of_ne hxip, h.frame.others x hxip] at hx
      exact hx
  · rw [writeBlocks, inode_of_locked hlock, if_pos ⟨List.length_pos_iff.mpr hsrc, hsize⟩,
      ← Finset.union_assoc, ← (h.lh hthere).1, Finset.union_comm]
    rfl
  · obtain ⟨_, b, hb, hmem⟩ := hthere bn hbn
    exact ⟨b, by rw [hplace1]; exact hb, Finset.mem_insert_of_mem hmem⟩

theorem Writes.keep (h : Writes sb ip (slotsOf off src.length) off src s s') (hs : Safe sb s)
    (hlock : s.Locked ip)
    (hthere : ∀ bn, Covers off src.length bn →
      bn < maxfile ∧ ∃ b, s'.place (ip, slotOf bn) = some b ∧ b ∈ s'.lh)
    (hsame : (∀ bn, Covers off src.length bn → s.place (ip, slotOf bn) ≠ none) →
      s'.icache = s.icache)
    (hbound : off + src.length ≤ (s.icache ip).data.size) :
    Overwrites sb ip off src s s' := by
  rw [← inode_of_locked hlock] at hbound
  have hicache := hsame fun bn hcovers => (hs.dense ip bn (covers_below hcovers hbound)).2
  refine ⟨h.safe, fun x hx => ⟨h.frame.others x hx, by rw [h.frame.dinode]⟩, h.frame.ref,
    h.frame.valid, ?_, h.places, h.self, h.others, fun hsynced x hx => ?_, ?_,
    fun bn hbn => (hthere bn hbn).2, h.outstanding⟩
  · rw [inode_of_locked hlock] at hbound
    rw [Nat.max_eq_left hbound]
    exact h.frame.fields
  · rw [hicache, h.frame.dinode]
    exact hsynced x ((h.frame.locked x).mp hx)
  · rw [writeBlocks, if_neg (by omega), Finset.union_empty]
    exact (h.lh hthere).1

theorem covers_slots {bn : Nat} (hmax : off + n ≤ maxfile * bsize) (h : Covers off n bn) :
    bn < maxfile ∧ slotsFor bn ⊆ slotsOf off n := by
  have hbn : bn < maxfile := by
    have hlt := h.2.2
    simp only [maxfile, bsize] at *
    omega
  exact ⟨hbn, fun k hk => mem_slotsOf.mpr ⟨bn, ⟨hbn, h⟩, hk⟩⟩

section

variable (hsb : sb.Sane) (hs : Safe sb s) (hlock : s.Locked ip) (htype : (s.inode ip).type ≠ .dev)
  (hoff : off ≤ (s.inode ip).size) (hwrap : off + src.length < uintSize)
  (hmax : off + src.length ≤ maxfile * bsize)
include hsb hs hlock htype hoff hwrap hmax

theorem writei_overwrites {result : Option Nat}
    (h : writei sb s ip src off = some (result, s')) :
    result = some src.length ∧ Overwrites sb ip off src s s' ∧
      Room sb s ip (slotsOf off src.length) ∧ Loggable sb s ip off src.length := by
  have hslots : ∀ bn, Covers off src.length bn → slotsFor bn ⊆ slotsOf off src.length :=
    fun bn hbn => (covers_slots hmax hbn).2
  have hpresent : off + src.length ≤ (s.inode ip).size → ∀ bn, Covers off src.length bn →
      bn < maxfile ∧ s.place (ip, slotOf bn) ≠ none := fun hbound bn hbn =>
    hs.dense ip bn (covers_below hbn hbound)
  unfold Loggable
  rw [inode_of_locked hlock] at htype hoff hpresent ⊢
  unfold writei at h
  dsimp only at h
  rw [if_neg htype, if_neg (by omega), if_neg (by omega)] at h
  obtain ⟨s1, hloop, hresult⟩ := Option.bind_eq_some_iff.mp h
  obtain ⟨hwrites, hthere, hsame⟩ := writeLoop_writes hsb hs hlock le_rfl hslots hloop
  obtain ⟨hlh, hroom⟩ := hwrites.lh hthere
  have hsize : (s1.icache ip).data.size = (s.icache ip).data.size := by
    rw [hwrites.frame.fields]
  rw [hsize] at hresult
  split at hresult
  · rename_i hgrow
    obtain ⟨s2, hupdate, heq⟩ := Option.map_eq_some_iff.mp hresult
    obtain ⟨hlog, hopen, rfl⟩ := iupdate_eq_some.mp hupdate
    cases heq
    refine ⟨rfl, hwrites.update hlock hthere hgrow.1 hoff hgrow.2, hroom, Or.inr ⟨?_, ?_⟩⟩
    · rw [← hwrites.outstanding]
      exact hopen
    · rw [if_pos hgrow.2, ← hlh]
      exact hlog
  · rename_i hgrow
    cases hresult
    have hbound : off + src.length ≤ (s.icache ip).data.size := by
      by_cases hnil : src = []
      · rw [hnil]
        exact hoff
      · exact Nat.le_of_not_lt fun hlt => hgrow ⟨hnil, hlt⟩
    refine ⟨rfl, hwrites.keep hs hlock hthere hsame hbound, hroom, ?_⟩
    by_cases hnil : src = []
    · exact Or.inl (by rw [hnil]; rfl)
    · rw [if_neg (Nat.not_lt.mpr hbound)]
      exact Or.inr ((writeLoop_present hs hlock hnil le_rfl (hpresent hbound)).mp ⟨s', hloop⟩)

theorem writei_total (hroom : Room sb s ip (slotsOf off src.length))
    (hlog : Loggable sb s ip off src.length) :
    ∃ s', writei sb s ip src off = some (some src.length, s') := by
  have hloop : ∃ s1, writeLoop sb ip src.length s off src = some s1 := by
    rcases hlog with hnil | ⟨hopen, hlog⟩
    · rw [List.length_eq_zero_iff.mp hnil]
      exact ⟨s, rfl⟩
    · split at hlog
      · exact writeLoop_total hsb hs hlock le_rfl ⟨hroom, hlog, hopen⟩ fun bn hbn =>
          covers_slots hmax hbn
      · rename_i hkeep
        by_cases hnil : src = []
        · rw [hnil]
          exact ⟨s, rfl⟩
        · exact (writeLoop_present hs hlock hnil le_rfl fun bn hbn =>
            hs.dense ip bn (covers_below hbn (Nat.le_of_not_lt hkeep))).mpr ⟨hopen, hlog⟩
  obtain ⟨s1, hloop⟩ := hloop
  obtain ⟨hwrites, hthere, _⟩ := writeLoop_writes hsb hs hlock le_rfl
    (fun bn hbn => (covers_slots hmax hbn).2) hloop
  have hsize : (s1.icache ip).data.size = (s.icache ip).data.size := by
    rw [hwrites.frame.fields]
  unfold Loggable at hlog
  rw [inode_of_locked hlock] at htype hoff hlog
  unfold writei
  dsimp only
  rw [if_neg htype, if_neg (by omega), if_neg (by omega), hloop, Option.bind_some, hsize]
  split
  · rename_i hgrow
    obtain ⟨hopen, hlog⟩ := hlog.resolve_left fun hnil => hgrow.1 (List.length_eq_zero_iff.mp hnil)
    rw [if_pos hgrow.2, ← (hwrites.lh hthere).1] at hlog
    refine ⟨_, Option.map_eq_some_iff.mpr ⟨_, iupdate_eq_some.mpr ⟨hlog, ?_, rfl⟩, rfl⟩⟩
    show 0 < s1.outstanding
    rw [hwrites.outstanding]
    exact hopen
  · exact ⟨_, rfl⟩

end

/-- A file or a directory is an array of bytes: `readi` and `writei` fail for the
offsets and lengths in their checks only, and otherwise read a part of the contents and
replace a part of them. A `writei` that does not fail panics exactly when blocks or
entries of the log are missing. -/
theorem contents_are_bytes (hsb : sb.Sane) (hs : Safe sb s) (hlock : s.Locked ip)
    (htype : (s.inode ip).type = .file ∨ (s.inode ip).type = .dir) (hoff : off < uintSize)
    (hn : n < uintSize) (device : List UInt8) :
    ((∀ s', readi sb device s ip off n = some (none, s') ↔
        ((s.inode ip).size < off ∨ Wraps off n) ∧ s' = s) ∧
      (¬ ((s.inode ip).size < off ∨ Wraps off n) →
        readi sb device s ip off n = some (some (((s.content ip).drop off).take n), s))) ∧
    ∀ src : List UInt8, src.length = n →
      (∀ s', writei sb s ip src off = some (none, s') ↔
        ((s.inode ip).size < off ∨ Wraps off n ∨ maxfile * bsize < off + n) ∧ s' = s) ∧
      (¬ ((s.inode ip).size < off ∨ Wraps off n ∨ maxfile * bsize < off + n) →
        (writei sb s ip src off ≠ none ↔
          Room sb s ip (slotsOf off n) ∧ Loggable sb s ip off n) ∧
        ∀ result s', writei sb s ip src off = some (result, s') → result = some n ∧ Safe sb s' ∧
          s'.content ip = (s.content ip).take off ++ src ++ (s.content ip).drop (off + n) ∧
          (s'.inode ip).size = max (s.inode ip).size (off + n) ∧
          ∀ x, x ≠ ip → s'.content x = s.content x) := by
  have hdev : (s.inode ip).type ≠ .dev := by
    intro hdev
    rw [hdev] at htype
    rcases htype with htype | htype
    · cases htype
    · cases htype
  rw [wraps_iff hoff hn]
  have hread : ¬ ((s.inode ip).size < off ∨ uintSize ≤ off + n) →
      readi sb device s ip off n = some (some (((s.content ip).drop off).take n), s) :=
    fun hok => readi_content device hs hlock hdev (by omega) (by omega)
  refine ⟨⟨fun s' => ⟨fun h => ?_, ?_⟩, hread⟩, ?_⟩
  · by_cases hok : (s.inode ip).size < off ∨ uintSize ≤ off + n
    · refine ⟨hok, ?_⟩
      rw [readi_fails hlock hdev hok] at h
      cases h
      rfl
    · rw [hread hok] at h
      cases h
  · rintro ⟨hbad, rfl⟩
    exact readi_fails hlock hdev hbad
  rintro src rfl
  refine ⟨fun s' => ⟨fun h => ?_, ?_⟩, fun hok => ⟨⟨fun hreturns => ?_, ?_⟩, fun result s' h => ?_⟩⟩
  · by_cases hok : (s.inode ip).size < off ∨ uintSize ≤ off + src.length ∨
        maxfile * bsize < off + src.length
    · refine ⟨hok, ?_⟩
      rw [writei_fails hlock hdev hok] at h
      cases h
      rfl
    · obtain ⟨hresult, _⟩ :=
        writei_overwrites hsb hs hlock hdev (by omega) (by omega) (by omega) h
      cases hresult
  · rintro ⟨hbad, rfl⟩
    exact writei_fails hlock hdev hbad
  · obtain ⟨⟨result, s'⟩, h⟩ := Option.ne_none_iff_exists'.mp hreturns
    exact (writei_overwrites hsb hs hlock hdev (by omega) (by omega) (by omega) h).2.2
  · rintro ⟨hroom, hlog⟩
    obtain ⟨s', h⟩ := writei_total hsb hs hlock hdev (by omega) (by omega) (by omega) hroom hlog
    rw [h]
    exact Option.some_ne_none _
  · obtain ⟨hresult, hover, _⟩ :=
      writei_overwrites hsb hs hlock hdev (by omega) (by omega) (by omega) h
    exact ⟨hresult, hover.safe, hover.content_self hlock (by omega),
      by rw [hover.inode_self hlock], fun x hx => hover.content_of_ne hx⟩

end Calls

theorem mkfsDisk_sane : mkfsDisk.Sane :=
  ⟨by decide, by decide⟩

/-- The image of `mkfs` with one empty file, in the transaction of a call. -/
def openImage : State :=
  { image mkfsDisk (fun _ => zeroBlock) 1 with outstanding := 1 }

theorem openImage_safe : Safe mkfsDisk openImage :=
  (image_safe (by decide) (by decide) (by decide)).withLog ∅ 1

/-- Three bytes inside the five bytes of the file. -/
theorem contents_are_bytes_inside : ∃ s', writei mkfsDisk openImage 2 [7, 8, 9] 1 =
    some (some 3, s') ∧ s'.content 2 = [1, 7, 8, 9, 5] ∧
      s'.content 1 = openImage.content 1 := by
  obtain ⟨_, hwrite⟩ := contents_are_bytes mkfsDisk_sane openImage_safe
    (show openImage.Locked 2 by decide) (Or.inl (by decide)) (show 1 < uintSize by decide)
    (show 3 < uintSize by decide) []
  obtain ⟨hreturns, hresult⟩ := (hwrite [7, 8, 9] rfl).2 (by unfold Wraps; decide)
  obtain ⟨⟨result, s'⟩, h⟩ := Option.ne_none_iff_exists'.mp
    (hreturns.mpr ⟨by unfold Room; decide +kernel, Or.inr (by decide +kernel)⟩)
  obtain ⟨rfl, _, hself, _, hothers⟩ := hresult result s' h
  refine ⟨s', h, ?_, hothers 1 (by decide)⟩
  rw [hself]
  decide

/-- There are blocks for 16000 bytes, but not entries in the log. -/
theorem writei_too_big : Safe mkfsDisk openImage ∧ openImage.Locked 4 ∧
    (openImage.inode 4).type = .file ∧ (openImage.inode 4).size = 0 ∧
    openImage.lh = ∅ ∧ openImage.outstanding = 1 ∧ Room mkfsDisk openImage 4 (slotsOf 0 16000) ∧
    writei mkfsDisk openImage 4 (List.replicate 16000 0) 0 = none := by
  refine ⟨openImage_safe, by decide, by decide, by decide, rfl, rfl, ?_, by decide +kernel⟩
  unfold Room
  decide +kernel

end Xv6.Fs
