import Xv6.Fs.Icache

/-! The blocks that `filewrite` logs between `begin_op` and `end_op`. -/
namespace Xv6.Fs
open Log (logsize maxopblocks)

abbrev maxwrite : Nat := (logsize - 1 - 1 - 2) / 2 * 512

/-- What a call of `filewrite` does: the value it returns, with `none` for -1, the
offset of the file, the file system, and the blocks that each of its
transactions has logged. -/
structure Written where
  result : Option Nat
  off : Nat
  fs : State
  sections : List (Finset Nat)

/-- The loop of `filewrite`; the fuel is the number of bytes. -/
def filewriteLoop (sb : Superblock) (ip total : Nat) :
    Nat → State → Nat → List UInt8 → Option Written
  | 0, s, off, _ => some ⟨some total, off, s, []⟩
  | fuel + 1, s, off, src =>
    if src = [] then some ⟨some total, off, s, []⟩
    else
      let n1 := min src.length maxwrite
      match (beginOp s).bind fun s => (ilock s ip).bind fun s =>
        writei sb s ip (src.take n1) off with
      | none => none
      | some (none, s) => some ⟨none, off, endOp s, [s.lh]⟩
      | some (some r, s) =>
        if r ≠ n1 then none
        else (filewriteLoop sb ip total fuel (endOp s) (off + r) (src.drop n1)).map
          fun later => { later with sections := s.lh :: later.sections }

/-- `filewrite(f, addr, n)` of a writable file at offset `off` of inode `ip`. -/
def filewrite (sb : Superblock) (s : State) (ip off : Nat) (src : List UInt8) : Option Written :=
  filewriteLoop sb ip src.length src.length s off src

section

variable {sb : Superblock} {s s' : State} {ip off : Nat} {src : List UInt8}

theorem SameFiles.writeBlocks (h : SameFiles s s') (n : Nat) :
    writeBlocks sb s' ip off n = writeBlocks sb s ip off n := by
  rw [Fs.writeBlocks, Fs.writeBlocks, (footprint_congr h.place h.bitmap _).2.2, h.inode]

theorem slotOf_injective {bn bn' : Nat} (h : slotOf bn = slotOf bn') : bn = bn' := by
  unfold slotOf at h
  split at h
  · split at h
    · exact h
    · omega
  · split at h
    · omega
    · omega

/-- The blocks with the data are different. -/
theorem Overwrites.card_ge (h : Overwrites sb ip off src s s') {k : Nat}
    (hk : ∀ i, i < k → Covers off src.length (off / bsize + i)) : k ≤ s'.lh.card := by
  have hstored : ∀ i, ∃ b, i < k →
      s'.place (ip, slotOf (off / bsize + i)) = some b ∧ b ∈ s'.lh := by
    intro i
    by_cases hi : i < k
    · obtain ⟨b, hb⟩ := h.stored _ (hk i hi)
      exact ⟨b, fun _ => hb⟩
    · exact ⟨0, fun hlt => absurd hlt hi⟩
  choose f hf using hstored
  rw [← Finset.card_range k]
  refine Finset.card_le_card_of_injOn f (fun i hi => ?_) fun i hi j hj heq => ?_
  · exact (hf i (Finset.mem_range.mp hi)).2
  · have hi := (hf i (Finset.mem_range.mp hi)).1
    rw [heq] at hi
    have hslot := h.safe.owned.once _ _ _ hi (hf j (Finset.mem_range.mp hj)).1
    exact Nat.add_left_cancel (slotOf_injective (Prod.mk.inj hslot).2)

/-- The checks of `writei`. -/
def Refused (s : State) (ip off n : Nat) : Prop :=
  (s.inode ip).size < off ∨ maxfile * bsize < off + n

/-- What the transaction of a part of the write logs. -/
theorem transaction_logs {result : Option Nat} (hsb : sb.Sane) (hs : Safe sb s) (hsync : Synced s)
    (hidle : Idle s) (htype : (s.inode ip).type = .file)
    (h : ((beginOp s).bind fun s => (ilock s ip).bind fun s => writei sb s ip src off) =
      some (result, s')) :
    Refused s ip off src.length ∧ result = none ∧ s'.lh = ∅ ∨
      ¬ Refused s ip off src.length ∧ result = some src.length ∧
        s'.lh = writeBlocks sb s ip off src.length ∧
        ∀ k, (∀ i, i < k → Covers off src.length (off / bsize + i)) → k ≤ s'.lh.card := by
  rw [hidle.beginOp, Option.bind_some] at h
  obtain ⟨s2, hlock, hwrite⟩ := Option.bind_eq_some_iff.mp h
  have href : 0 < (s.icache ip).ref := by
    by_contra href
    unfold ilock at hlock
    rw [if_pos (show (s.icache ip).ref < 1 by omega)] at hlock
    cases hlock
  have hs1 : Safe sb { s with outstanding := 1 } := hs.withLog s.lh 1
  have htype1 : (State.inode { s with outstanding := 1 } ip).type ≠ .free := by
    show (s.inode ip).type ≠ .free
    rw [htype]
    exact FileType.noConfusion
  obtain ⟨s2', hlock', hsame, hs2, _, hlocked, _, _⟩ := ilock_total hs1 hsync href htype1
  rw [hlock] at hlock'
  obtain rfl := Option.some.inj hlock'
  have hinode : s2.inode ip = s.inode ip := hsame.inode ip
  have hlh : s2.lh = ∅ := hsame.log.1.trans hidle.1
  have hdev : (s2.inode ip).type ≠ .dev := by
    rw [hinode, htype]
    exact FileType.noConfusion
  have hwrap : maxfile * bsize < uintSize := by decide
  by_cases hbad : Refused s ip off src.length
  · rw [Refused, ← hinode] at hbad
    rw [writei_fails hlocked hdev (by omega)] at hwrite
    cases hwrite
    rw [Refused, ← hinode]
    exact Or.inl ⟨hbad, rfl, hlh⟩
  · have hok := hbad
    rw [Refused, ← hinode] at hok
    obtain ⟨hresult, hover, _⟩ := writei_overwrites hsb hs2 hlocked hdev (by omega) (by omega)
      (by omega) hwrite
    refine Or.inr ⟨hbad, hresult, ?_, fun k hk => hover.card_ge hk⟩
    rw [hover.lh, hlh, Finset.empty_union, hsame.writeBlocks]
    rfl

theorem filewriteLoop_nil (sb : Superblock) (ip total fuel : Nat) (s : State) (off : Nat) :
    filewriteLoop sb ip total fuel s off [] = some ⟨some total, off, s, []⟩ := by
  cases fuel with
  | zero => rfl
  | succ fuel => exact if_pos rfl

/-- The transactions of a call of `filewrite` stay within their reservation exactly when
there is none, when `writei` refuses the first part, or when all is in one part and the
blocks that it logs are not too many: the data blocks in place or the first free blocks,
with their parts of the free map, the indirect block if it gets an entry, and the block
of the inode if the file grows. -/
theorem filewrite_within_reservation {written : Written} (hsb : sb.Sane) (hs : Safe sb s)
    (hsync : Synced s) (hidle : Idle s) (htype : (s.inode ip).type = .file)
    (h : filewrite sb s ip off src = some written) :
    (∀ logged ∈ written.sections, logged.card ≤ maxopblocks) ↔
      src = [] ∨ Refused s ip off (min src.length maxwrite) ∨
        src.length ≤ maxwrite ∧ (writeBlocks sb s ip off src.length).card ≤ maxopblocks := by
  unfold filewrite at h
  by_cases hsrc : src = []
  · rw [hsrc] at h
    cases h
    exact ⟨fun _ => Or.inl hsrc, fun _ logged hmem => (by cases hmem)⟩
  obtain ⟨fuel, hfuel⟩ := Nat.exists_eq_succ_of_ne_zero (mt List.length_eq_zero_iff.mp hsrc)
  rw [or_iff_right hsrc]
  rw [hfuel] at h
  unfold filewriteLoop at h
  rw [if_neg hsrc] at h
  dsimp only at h
  have hlength : (src.take (min src.length maxwrite)).length = min src.length maxwrite :=
    List.length_take_of_le (Nat.min_le_left ..)
  split at h
  · cases h
  · rename_i s' hcall
    cases h
    rcases transaction_logs hsb hs hsync hidle htype hcall with ⟨hbad, _, hlh⟩ | ⟨_, hresult, _⟩
    · rw [hlength] at hbad
      refine ⟨fun _ => Or.inl hbad, fun _ logged hmem => ?_⟩
      rw [List.mem_singleton.mp hmem, hlh]
      exact Nat.zero_le _
    · cases hresult
  · rename_i r s' hcall
    rcases transaction_logs hsb hs hsync hidle htype hcall with ⟨_, hresult, _⟩ |
      ⟨hok, hresult, hlh, hge⟩
    · cases hresult
    · rw [hlength] at hok hresult hlh hge
      rw [or_iff_right hok]
      cases hresult
      rw [if_neg (not_not.mpr rfl)] at h
      obtain ⟨later, hlater, hwritten⟩ := Option.map_eq_some_iff.mp h
      cases hwritten
      by_cases hshort : src.length ≤ maxwrite
      · -- the only transaction
        rw [Nat.min_eq_left hshort] at hlater hlh
        rw [List.drop_length, filewriteLoop_nil] at hlater
        cases hlater
        simp [hshort, hlh]
      · -- the first part has thirteen blocks
        have hmin := Nat.min_eq_right (Nat.le_of_not_le hshort)
        rw [hmin] at hge
        have hmany := hge 13 fun i hi => by
          simp only [Covers, maxwrite, logsize, maxopblocks, bsize]
          omega
        refine ⟨fun hall => ?_, fun hone => absurd hone.1 hshort⟩
        have hfew := hall s'.lh List.mem_cons_self
        simp only [maxopblocks] at hfew
        omega

end

/-- Two bytes behind the five bytes of the file go into its block. -/
theorem filewrite_within_reservation_append : ∃ written,
    filewrite mkfsDisk (image mkfsDisk (fun _ => zeroBlock) 1) 2 5 [7, 8] = some written ∧
      written.sections = [{60, 32}] ∧
      ∀ logged ∈ written.sections, logged.card ≤ maxopblocks := by
  obtain ⟨written, hcall, hsections⟩ : ∃ written,
      filewrite mkfsDisk (image mkfsDisk (fun _ => zeroBlock) 1) 2 5 [7, 8] = some written ∧
      written.sections = [{60, 32}] := by
    decide +kernel
  refine ⟨written, hcall, hsections, (filewrite_within_reservation mkfsDisk_sane
    (image_safe (by decide) (by decide) (by decide)) image_synced ⟨rfl, rfl⟩ (by decide)
    hcall).mpr (Or.inr (Or.inr ⟨by decide, ?_⟩))⟩
  decide +kernel

/-- The first transaction of a large write to an empty file: the free map, twelve
direct blocks, the indirect block, a block behind it and the inode. -/
theorem filewrite_exceeds_reservation :
    Safe mkfsDisk (image mkfsDisk (fun _ => zeroBlock) 1) ∧
      ∃ written, filewrite mkfsDisk (image mkfsDisk (fun _ => zeroBlock) 1) 4 0
          (List.replicate maxwrite 0) = some written ∧
        written.result = some maxwrite ∧
        ∃ logged ∈ written.sections, logged.card = 16 := by
  exact ⟨image_safe (by decide) (by decide) (by decide), by decide +kernel⟩

end Xv6.Fs
