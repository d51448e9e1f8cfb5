import Xv6.Fs.Content

/-! References to inodes: what `iget`, `idup`, `ilock` and `iput` change in the cache,
and that they change no file while a link or another reference is left. -/
namespace Xv6.Fs
open Function

structure SameFiles (s s' : State) : Prop where
  bitmap : s'.bitmap = s.bitmap
  dinode : s'.dinode = s.dinode
  block : s'.block = s.block
  inode : ∀ x, s'.inode x = s.inode x
  log : s'.lh = s.lh ∧ s'.outstanding = s.outstanding

section

variable {s s' s'' : State} {sb : Superblock}

theorem SameFiles.refl (s : State) : SameFiles s s :=
  ⟨rfl, rfl, rfl, fun _ => rfl, rfl, rfl⟩

theorem SameFiles.trans (h : SameFiles s s') (h' : SameFiles s' s'') : SameFiles s s'' :=
  ⟨h'.bitmap.trans h.bitmap, h'.dinode.trans h.dinode, h'.block.trans h.block,
    fun x => (h'.inode x).trans (h.inode x), h'.log.1.trans h.log.1, h'.log.2.trans h.log.2⟩

theorem SameFiles.place (h : SameFiles s s') (p : Nat × Nat) : s'.place p = s.place p := by
  refine place_congr ?_
  rw [h.inode, h.block]

theorem SameFiles.byte (h : SameFiles s s') (x : Nat) : s'.byte x = s.byte x :=
  byte_congr h.place h.block

theorem SameFiles.content (h : SameFiles s s') (x : Nat) : s'.content x = s.content x := by
  rw [State.content, State.content, h.inode, h.byte]

theorem SameFiles.safe (h : SameFiles s s') (hs : Safe sb s)
    (htyped : ∀ x, s'.Locked x → (s.inode x).type ≠ .free) : Safe sb s' where
  owned := hs.owned.congr h.place fun b _ => by rw [h.bitmap]
  empty := by
    intro ip k htype
    rw [h.inode] at htype
    rw [h.place]
    exact hs.empty ip k htype
  limit := by
    intro ip hip
    rw [h.inode]
    exact hs.limit ip hip
  dense := by
    intro ip bn hbn
    rw [h.inode] at hbn
    rw [h.place]
    exact hs.dense ip bn hbn
  typed := by
    intro ip hlock
    rw [← inode_of_locked hlock, h.inode]
    exact htyped ip hlock

end

theorem Synced.inode {s : State} (h : Synced s) (ip : Nat) : s.inode ip = s.dinode ip := by
  by_cases hlock : s.Locked ip
  · rw [inode_of_locked hlock, h ip hlock]
  · exact if_neg hlock

section

variable {s : State} {sb : Superblock} {ip x : Nat}

/-- The state that `iget` leaves when it finds an entry. -/
def State.addRef (s : State) (ip : Nat) : State :=
  if 0 < (s.icache ip).ref then s.setInode ip { s.icache ip with ref := (s.icache ip).ref + 1 }
  else s.setInode ip { s.icache ip with ref := 1, valid := false }

/-- The inode has an entry in the cache, or there is a free one. -/
def Cachable (s : State) (ip : Nat) : Prop :=
  0 < (s.icache ip).ref ∨ s.icache.live.card < ninode

instance (s : State) (ip : Nat) : Decidable (Cachable s ip) :=
  inferInstanceAs (Decidable (_ ∨ _))

theorem iget_eq (s : State) (ip : Nat) :
    iget s ip = if Cachable s ip then some (s.addRef ip) else none := by
  unfold iget State.addRef
  by_cases href : 0 < (s.icache ip).ref
  · have hcached : Cachable s ip := Or.inl href
    rw [if_pos href, if_pos href, if_pos hcached]
  · rw [if_neg href, if_neg href]
    by_cases hfull : ninode ≤ s.icache.live.card
    · have hnone : ¬ Cachable s ip := fun h => h.elim href (Nat.not_lt.mpr hfull)
      rw [if_pos hfull, if_neg hnone]
    · have hfree : Cachable s ip := Or.inr (Nat.lt_of_not_le hfull)
      rw [if_neg hfull, if_pos hfree]

theorem addRef_of_ne (hx : x ≠ ip) : (s.addRef ip).icache x = s.icache x := by
  unfold State.addRef
  split
  · exact update_of_ne hx ..
  · exact update_of_ne hx ..

theorem addRef_of_ref (h : 0 < (s.icache ip).ref) :
    (s.addRef ip).icache ip = { s.icache ip with ref := (s.icache ip).ref + 1 } := by
  rw [State.addRef, if_pos h]
  exact update_self ..

theorem addRef_of_free (h : (s.icache ip).ref = 0) :
    (s.addRef ip).icache ip = { s.icache ip with ref := 1, valid := false } := by
  rw [State.addRef, if_neg (by omega)]
  exact update_self ..

theorem addRef_ref (s : State) (ip x : Nat) :
    ((s.addRef ip).icache x).ref = (s.icache x).ref + if x = ip then 1 else 0 := by
  by_cases hx : x = ip
  · subst hx
    rw [if_pos rfl]
    by_cases h : 0 < (s.icache x).ref
    · rw [addRef_of_ref h]
    · rw [addRef_of_free (by omega)]
      show 1 = _
      omega
  · rw [addRef_of_ne hx, if_neg hx, Nat.add_zero]

theorem addRef_locked (s : State) (ip x : Nat) : (s.addRef ip).Locked x ↔ s.Locked x := by
  unfold State.Locked
  by_cases hx : x = ip
  · subst hx
    by_cases h : 0 < (s.icache x).ref
    · rw [addRef_of_ref h]
      exact ⟨fun hlock => ⟨h, hlock.2⟩, fun hlock => ⟨Nat.succ_pos _, hlock.2⟩⟩
    · rw [addRef_of_free (by omega)]
      exact ⟨fun hlock => (by cases hlock.2), fun hlock => absurd hlock.1 h⟩
  · rw [addRef_of_ne hx]

theorem addRef_data (h : s.Locked x) : ((s.addRef ip).icache x).data = (s.icache x).data := by
  by_cases hx : x = ip
  · subst hx
    rw [addRef_of_ref h.1]
  · rw [addRef_of_ne hx]

theorem addRef_same (s : State) (ip : Nat) : SameFiles s (s.addRef ip) := by
  have hfields : (s.addRef ip).bitmap = s.bitmap ∧ (s.addRef ip).dinode = s.dinode ∧
      (s.addRef ip).block = s.block ∧ (s.addRef ip).lh = s.lh ∧
      (s.addRef ip).outstanding = s.outstanding := by
    unfold State.addRef
    split
    · exact ⟨rfl, rfl, rfl, rfl, rfl⟩
    · exact ⟨rfl, rfl, rfl, rfl, rfl⟩
  refine ⟨hfields.1, hfields.2.1, hfields.2.2.1, fun x => ?_, hfields.2.2.2⟩
  by_cases hlock : s.Locked x
  · rw [inode_of_locked hlock, inode_of_locked ((addRef_locked s ip x).mpr hlock),
      addRef_data hlock]
  · rw [State.inode, State.inode, if_neg hlock, if_neg (mt (addRef_locked s ip x).mp hlock),
      hfields.2.1]

theorem addRef_safe (hs : Safe sb s) (ip : Nat) : Safe sb (s.addRef ip) := by
  refine (addRef_same s ip).safe hs fun x hlock => ?_
  have hlock := (addRef_locked s ip x).mp hlock
  rw [inode_of_locked hlock]
  exact hs.typed x hlock

theorem iput_drop (h : ¬ ((s.icache ip).ref = 1 ∧ (s.icache ip).valid = true ∧
    (s.icache ip).data.nlink = 0)) :
    iput sb s ip = some (s.setInode ip { s.icache ip with ref := (s.icache ip).ref - 1 }) := by
  rw [iput, if_neg h]

variable {entry : Inode}

theorem setInode_self : (s.setInode ip entry).icache ip = entry :=
  update_self ..

theorem setInode_of_ne (hx : x ≠ ip) :
    (s.setInode ip entry).icache x = s.icache x :=
  update_of_ne hx ..

theorem setInode_locked (hx : x ≠ ip) :
    (s.setInode ip entry).Locked x ↔ s.Locked x := by
  unfold State.Locked
  rw [setInode_of_ne hx]

theorem setInode_same (ip : Nat) (entry : Inode) (hsync : Synced s)
    (hdata : 0 < entry.ref → entry.valid = true → entry.data = s.dinode ip) :
    SameFiles s (s.setInode ip entry) ∧ Synced (s.setInode ip entry) := by
  have hsynced : Synced (s.setInode ip entry) := by
    intro x hlock
    by_cases hx : x = ip
    · subst hx
      unfold State.Locked at hlock
      rw [setInode_self] at hlock ⊢
      exact hdata hlock.1 hlock.2
    · rw [setInode_of_ne hx]
      exact hsync x ((setInode_locked hx).mp hlock)
  refine ⟨⟨rfl, rfl, rfl, fun x => ?_, rfl, rfl⟩, hsynced⟩
  rw [hsynced.inode, hsync.inode]
  rfl

theorem ilock_total (hs : Safe sb s) (hsync : Synced s) (href : 0 < (s.icache ip).ref)
    (htype : (s.inode ip).type ≠ .free) :
    ∃ s', ilock s ip = some s' ∧ SameFiles s s' ∧ Safe sb s' ∧ Synced s' ∧ s'.Locked ip ∧
      (∀ x, (s'.icache x).ref = (s.icache x).ref) ∧ ∀ x, x ≠ ip → s'.icache x = s.icache x := by
  rw [hsync.inode] at htype
  unfold ilock
  rw [if_neg (by omega)]
  by_cases hvalid : (s.icache ip).valid = true
  · rw [if_pos hvalid]
    exact ⟨s, rfl, SameFiles.refl s, hs, hsync, ⟨href, hvalid⟩, fun _ => rfl, fun _ _ => rfl⟩
  · rw [if_neg hvalid, if_neg htype]
    obtain ⟨hsame, hsync'⟩ := setInode_same ip
      { s.icache ip with valid := true, data := s.dinode ip } hsync fun _ _ => rfl
    refine ⟨_, rfl, hsame, hsame.safe hs fun x hlock => ?_, hsync', ?_, fun x => ?_,
      fun x hx => setInode_of_ne hx⟩
    · by_cases hx : x = ip
      · rw [hx, hsync.inode]
        exact htype
      · have hlock' := (setInode_locked hx).mp hlock
        rw [inode_of_locked hlock']
        exact hs.typed x hlock'
    · unfold State.Locked
      rw [setInode_self]
      exact ⟨href, rfl⟩
    · by_cases hx : x = ip
      · rw [hx, setInode_self]
      · rw [setInode_of_ne hx]

theorem iput_total (hs : Safe sb s) (hsync : Synced s) (href : 0 < (s.icache ip).ref)
    (hkeep : (s.icache ip).ref = 1 → (s.inode ip).nlink ≠ 0) :
    ∃ s', iput sb s ip = some s' ∧ SameFiles s s' ∧ Safe sb s' ∧ Synced s' ∧
      (∀ x, x ≠ ip → s'.icache x = s.icache x) ∧
      ∀ x, (s'.icache x).ref + (if x = ip then 1 else 0) = (s.icache x).ref := by
  have hdrop : ¬ ((s.icache ip).ref = 1 ∧ (s.icache ip).valid = true ∧
      (s.icache ip).data.nlink = 0) := by
    rintro ⟨hone, hvalid, hzero⟩
    refine hkeep hone ?_
    rw [inode_of_locked ⟨href, hvalid⟩]
    exact hzero
  obtain ⟨hsame, hsync'⟩ := setInode_same ip
    { s.icache ip with ref := (s.icache ip).ref - 1 } hsync
    fun _ hvalid => hsync ip ⟨href, hvalid⟩
  refine ⟨_, iput_drop hdrop, hsame, hsame.safe hs fun x hlock => ?_, hsync',
    fun x hx => setInode_of_ne hx, fun x => ?_⟩
  · have hlock' : s.Locked x := by
      by_cases hx : x = ip
      · subst hx
        unfold State.Locked at hlock
        rw [setInode_self] at hlock
        exact ⟨href, hlock.2⟩
      · exact (setInode_locked hx).mp hlock
    rw [inode_of_locked hlock']
    exact hs.typed x hlock'
  · by_cases hx : x = ip
    · subst hx
      rw [setInode_self, if_pos rfl]
      exact Nat.sub_add_cancel href
    · rw [if_neg hx, Nat.add_zero, setInode_of_ne hx]

theorem idup_eq_addRef (h : 0 < (s.icache ip).ref) : idup s ip = s.addRef ip := by
  rw [idup, State.addRef, if_pos h]

theorem addRef_synced (hsync : Synced s) (ip : Nat) : Synced (s.addRef ip) := by
  intro x hlock
  have hlock' := (addRef_locked s ip x).mp hlock
  rw [addRef_data hlock', (addRef_same s ip).dinode]
  exact hsync x hlock'

end

end Xv6.Fs
