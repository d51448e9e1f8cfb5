import Mathlib.Data.Fintype.Card

/-! The buffer cache, `bio.c`, in front of a disk of blocks. A buffer stays with
the thread that holds it, so a call with the disk access in it is one step. -/
namespace Xv6.Log
open Function

abbrev maxopblocks : Nat := 10
abbrev logsize : Nat := maxopblocks * 3
abbrev nbuf : Nat := maxopblocks * 3

abbrev Tid := Nat
abbrev BufId := Fin nbuf

/-- The 512 bytes of a block, as the words that `struct logheader` makes of them. -/
abbrev Block := Fin 128 → UInt32
abbrev Disk := Nat → Block

/-- `blockno` is `none` while `dev` is -1, `busy` is `B_BUSY` with its holder and
`dirty` is `B_DIRTY`. A buffer that `bread` has returned is `B_VALID`. -/
structure Buf where
  blockno : Option Nat
  busy : Option Tid
  dirty : Bool
  data : Block

/-- `order` is the linked list from `head.next` on, most recently used first. -/
structure Bcache where
  buf : BufId → Buf
  order : List BufId

section

def Bcache.setBuf (c : Bcache) (i : BufId) (b : Buf) : Bcache :=
  { c with buf := update c.buf i b }

def binit : Bcache :=
  ⟨fun _ => ⟨none, none, false, fun _ => 0⟩, (List.finRange nbuf).reverse⟩

def Bcache.find (c : Bcache) (b : Nat) : Option BufId :=
  c.order.find? fun i => (c.buf i).blockno = some b

/-- The least recently used buffer that is neither busy nor dirty. -/
def Bcache.recycle (c : Bcache) : Option BufId :=
  c.order.reverse.find? fun i => (c.buf i).busy = none ∧ (c.buf i).dirty = false

/-- `bread` by thread `t`. `none` means that it waits for a busy buffer, or the
panic of `bget` when every buffer is busy or dirty. -/
def bread (disk : Disk) (c : Bcache) (t : Tid) (b : Nat) : Option (BufId × Bcache) :=
  match c.find b with
  | some i =>
    if (c.buf i).busy = none then some (i, c.setBuf i { c.buf i with busy := some t }) else none
  | none => c.recycle.map fun i => (i, c.setBuf i ⟨some b, some t, false, disk b⟩)

def Bcache.store (c : Bcache) (i : BufId) (data : Block) : Bcache :=
  c.setBuf i { c.buf i with data := data }

/-- `bwrite`: the driver writes the block and clears `B_DIRTY`. -/
def bwrite (disk : Disk) (c : Bcache) (i : BufId) : Disk × Bcache :=
  match (c.buf i).blockno with
  | none => (disk, c)
  | some b => (update disk b (c.buf i).data, c.setBuf i { c.buf i with dirty := false })

def brelse (c : Bcache) (i : BufId) : Bcache :=
  { c.setBuf i { c.buf i with busy := none } with order := i :: c.order.erase i }

end

/-- Every buffer is on the list, no block has two, and a clean one has the
contents of the disk. -/
structure Coherent (c : Bcache) (disk : Disk) : Prop where
  listed : ∀ i, i ∈ c.order
  unique : ∀ {i j b}, (c.buf i).blockno = some b → (c.buf j).blockno = some b → i = j
  clean : ∀ {i b}, (c.buf i).blockno = some b → (c.buf i).dirty = false → (c.buf i).data = disk b

/-- The dirty buffers hold the blocks `pins`, with contents from `target`. -/
structure Cached (c : Bcache) (disk : Disk) (pins : List Nat) (target : Disk) :
    Prop extends Coherent c disk where
  pinned : ∀ b ∈ pins, ∃ i, (c.buf i).blockno = some b ∧ (c.buf i).dirty = true ∧
    (c.buf i).data = target b
  dirty : ∀ i, (c.buf i).dirty = true → ∃ b ∈ pins, (c.buf i).blockno = some b

section

variable {c c' : Bcache} {disk target : Disk} {pins : List Nat} {t : Tid}
  {i : BufId} {b : Nat}

@[simp] theorem setBuf_self (c : Bcache) (i : BufId) (x : Buf) : (c.setBuf i x).buf i = x := by
  simp [Bcache.setBuf]

theorem setBuf_of_ne (c : Bcache) {i j : BufId} (x : Buf) (h : j ≠ i) :
    (c.setBuf i x).buf j = c.buf j := by
  simp [Bcache.setBuf, h]

theorem find_some (h : c.find b = some i) : (c.buf i).blockno = some b := by
  simpa using List.find?_some h

theorem Coherent.find_none (h : Coherent c disk) (hfind : c.find b = none) (j : BufId) :
    (c.buf j).blockno ≠ some b := by
  simpa using List.find?_eq_none.mp hfind j (h.listed j)

theorem recycle_some (h : c.recycle = some i) : (c.buf i).busy = none ∧ (c.buf i).dirty =
    false := by
  simpa using List.find?_some h

theorem bread_cases (h : bread disk c t b = some (i, c')) :
    (c.find b = some i ∧ (c.buf i).busy = none ∧
      c' = c.setBuf i { c.buf i with busy := some t }) ∨
    (c.find b = none ∧ c.recycle = some i ∧ c' = c.setBuf i ⟨some b, some t, false, disk b⟩) := by
  unfold bread at h
  split at h
  · rename_i j hfind
    obtain ⟨hbusy, hresult⟩ := Option.ite_none_right_eq_some.mp h
    cases hresult
    exact Or.inl ⟨hfind, hbusy, rfl⟩
  · rename_i hfind
    obtain ⟨j, hrecycle, hresult⟩ := Option.map_eq_some_iff.mp h
    cases hresult
    exact Or.inr ⟨hfind, hrecycle, rfl⟩

variable {pins' : List Nat}

section

variable (h : Cached c disk pins target)
include h

theorem Cached.setBuf {disk' target' : Disk} {x : Buf}
    (hunique : ∀ j b, j ≠ i → x.blockno = some b → (c.buf j).blockno ≠ some b)
    (hclean : ∀ b, x.blockno = some b → x.dirty = false → x.data = disk' b)
    (hdisk : ∀ j b, j ≠ i → (c.buf j).blockno = some b → disk' b = disk b)
    (hpins : ∀ b ∈ pins', (x.blockno = some b ∧ x.dirty = true ∧ x.data = target' b) ∨
      (b ∈ pins ∧ (c.buf i).blockno ≠ some b ∧ target' b = target b))
    (hkeep : ∀ b ∈ pins, (c.buf i).blockno ≠ some b → b ∈ pins')
    (hdirty : x.dirty = true → ∃ b ∈ pins', x.blockno = some b) :
    Cached (c.setBuf i x) disk' pins' target' := by
  refine ⟨⟨h.listed, ?_, ?_⟩, ?_, ?_⟩
  · intro j k b hj hk
    by_cases hji : j = i <;> by_cases hki : k = i
    · rw [hji, hki]
    · rw [hji, setBuf_self] at hj
      rw [setBuf_of_ne c x hki] at hk
      exact absurd hk (hunique k b hki hj)
    · rw [hki, setBuf_self] at hk
      rw [setBuf_of_ne c x hji] at hj
      exact absurd hj (hunique j b hji hk)
    · rw [setBuf_of_ne c x hji] at hj
      rw [setBuf_of_ne c x hki] at hk
      exact h.unique hj hk
  · intro j b hj hclean'
    by_cases hji : j = i
    · subst hji
      rw [setBuf_self] at hj hclean' ⊢
      exact hclean b hj hclean'
    · rw [setBuf_of_ne c x hji] at hj hclean' ⊢
      rw [hdisk j b hji hj]
      exact h.clean hj hclean'
  · intro b hb
    rcases hpins b hb with hx | ⟨hold, hne, htarget⟩
    · exact ⟨i, by simpa using hx⟩
    · obtain ⟨j, hj, hjdirty, hjdata⟩ := h.pinned b hold
      have hji : j ≠ i := by
        rintro rfl
        exact hne hj
      refine ⟨j, ?_⟩
      rw [setBuf_of_ne c x hji, htarget]
      exact ⟨hj, hjdirty, hjdata⟩
  · intro j hj
    by_cases hji : j = i
    · subst hji
      rw [setBuf_self] at hj ⊢
      exact hdirty hj
    · rw [setBuf_of_ne c x hji] at hj ⊢
      obtain ⟨b, hb, hblock⟩ := h.dirty j hj
      exact ⟨b, hkeep b hb fun hi => hji (h.unique hblock hi), hblock⟩

theorem Cached.data_pinned (hb : b ∈ pins)
    (hi : (c.buf i).blockno = some b) : (c.buf i).dirty = true ∧ (c.buf i).data = target b := by
  obtain ⟨j, hj, hdirty, hdata⟩ := h.pinned b hb
  rw [h.unique hi hj]
  exact ⟨hdirty, hdata⟩

theorem Cached.not_dirty (hb : b ∉ pins)
    (hi : (c.buf i).blockno = some b) : (c.buf i).dirty = false := by
  by_contra hdirty
  obtain ⟨b', hb', hblock⟩ := h.dirty i (by simpa using hdirty)
  rw [hi] at hblock
  cases hblock
  exact hb hb'

theorem Cached.bread (hread : bread disk c t b = some (i, c')) :
    Cached c' disk pins target ∧ (c'.buf i).blockno = some b := by
  rcases bread_cases hread with ⟨hfind, _, rfl⟩ | ⟨hfind, hrecycle, rfl⟩
  · have hi := find_some hfind
    refine ⟨h.setBuf ?_ ?_ (fun _ _ _ _ => rfl) ?_ (fun _ hb' _ => hb') ?_, by simpa using hi⟩
    · intro j b' hji hb' hj
      exact hji (h.unique hj hb')
    · exact fun b' hb' hclean => h.clean hb' hclean
    · intro b' hb'
      by_cases hbb : (c.buf i).blockno = some b'
      · exact Or.inl ⟨hbb, h.data_pinned hb' hbb⟩
      · exact Or.inr ⟨hb', hbb, rfl⟩
    · exact h.dirty i
  · obtain ⟨_, hclean⟩ := recycle_some hrecycle
    have hfree : ∀ b' ∈ pins, (c.buf i).blockno ≠ some b' := by
      intro b' hb' hi
      have hdirty := (h.data_pinned hb' hi).1
      rw [hclean] at hdirty
      cases hdirty
    refine ⟨h.setBuf ?_ ?_ (fun _ _ _ _ => rfl) ?_ (fun _ hb' _ => hb') (by simp), by simp⟩
    · intro j b' _ hb'
      cases hb'
      exact h.find_none hfind j
    · intro b' hb' _
      cases hb'
      rfl
    · exact fun b' hb' => Or.inr ⟨hb', hfree b' hb', rfl⟩

end

theorem bread_busy (hread : Log.bread disk c t b = some (i, c')) :
    (c'.buf i).busy = some t ∧ (c.buf i).busy = none ∧ ∀ j, j ≠ i → c'.buf j = c.buf j := by
  rcases bread_cases hread with ⟨_, hbusy, rfl⟩ | ⟨_, hrecycle, rfl⟩
  · exact ⟨by simp, hbusy, fun j hj => setBuf_of_ne c _ hj⟩
  · exact ⟨by simp, (recycle_some hrecycle).1, fun j hj => setBuf_of_ne c _ hj⟩

theorem Cached.brelse (h : Cached c disk pins target) (i : BufId) :
    Cached (brelse c i) disk pins target := by
  have hbusy : ∀ j, ((Log.brelse c i).buf j).blockno = (c.buf j).blockno ∧
      ((Log.brelse c i).buf j).dirty = (c.buf j).dirty ∧
      ((Log.brelse c i).buf j).data = (c.buf j).data := by
    intro j
    by_cases hji : j = i
    · subst hji
      simp [Log.brelse, Bcache.setBuf]
    · simp [Log.brelse, Bcache.setBuf, hji]
  refine ⟨⟨?_, ?_, ?_⟩, ?_, ?_⟩
  · intro j
    by_cases hji : j = i
    · exact List.mem_cons.mpr (Or.inl hji)
    · exact List.mem_cons_of_mem i ((List.mem_erase_of_ne hji).mpr (h.listed j))
  · intro j k b hj hk
    rw [(hbusy j).1] at hj
    rw [(hbusy k).1] at hk
    exact h.unique hj hk
  · intro j b hj hclean
    rw [(hbusy j).1] at hj
    rw [(hbusy j).2.1] at hclean
    rw [(hbusy j).2.2]
    exact h.clean hj hclean
  · intro b hb
    obtain ⟨j, hj⟩ := h.pinned b hb
    refine ⟨j, ?_⟩
    rw [(hbusy j).1, (hbusy j).2.1, (hbusy j).2.2]
    exact hj
  · intro j hj
    rw [(hbusy j).2.1] at hj
    rw [(hbusy j).1]
    exact h.dirty j hj

theorem Cached.written (data : Block) (h : Cached c disk pins target)
    (hi : (c.buf i).blockno = some b) (hpins : ∀ b', b' ∈ pins' ↔ b' ∈ pins ∧ b' ≠ b) :
    (bwrite disk (c.store i data) i).1 = update disk b data ∧
      Cached (bwrite disk (c.store i data) i).2 (update disk b data) pins' target := by
  have hstore : (c.store i data).buf i = { c.buf i with data := data } := by simp [Bcache.store]
  have hwrite : bwrite disk (c.store i data) i =
      (update disk b data,
        c.setBuf i { c.buf i with data := data, dirty := false }) := by
    unfold bwrite
    rw [hstore]
    simp [hi, Bcache.store, Bcache.setBuf]
  rw [hwrite]
  refine ⟨rfl, h.setBuf ?_ ?_ ?_ ?_ ?_ (by simp)⟩
  · intro j b' hji hb' hj
    exact hji (h.unique hj hb')
  · intro b' hb' _
    have hbb : b' = b := Option.some.inj (hb'.symm.trans hi)
    rw [hbb, update_self]
  · intro j b' hji hj
    refine update_of_ne ?_ _ _
    rintro rfl
    exact hji (h.unique hj hi)
  · intro b' hb'
    obtain ⟨hold, hne⟩ := (hpins b').mp hb'
    refine Or.inr ⟨hold, ?_, rfl⟩
    rw [hi]
    exact fun heq => hne (Option.some.inj heq).symm
  · intro b' hb' hne
    refine (hpins b').mpr ⟨hb', ?_⟩
    rintro rfl
    exact hne hi

theorem Cached.marked {data : Block} (h : Cached c disk pins target)
    (hi : (c.buf i).blockno = some b) (hpins : ∀ b', b' ∈ pins' ↔ b' ∈ pins ∨ b' = b) :
    Cached (c.setBuf i { c.buf i with data := data, dirty := true }) disk pins'
      (update target b data) := by
  refine h.setBuf ?_ (by simp) (fun _ _ _ _ => rfl) ?_ (fun b' hb' _ => (hpins b').mpr (Or.inl hb'))
    ?_
  · intro j b' hji hb' hj
    exact hji (h.unique hj hb')
  · intro b' hb'
    by_cases hbb : b' = b
    · subst hbb
      exact Or.inl ⟨hi, rfl, by simp⟩
    · have hold : b' ∈ pins := by
        rcases (hpins b').mp hb' with hold | heq
        · exact hold
        · exact absurd heq hbb
      refine Or.inr ⟨hold, ?_, update_of_ne hbb _ _⟩
      rw [hi]
      exact fun heq => hbb (Option.some.inj heq).symm
  · exact fun _ => ⟨b, (hpins b).mpr (Or.inr rfl), hi⟩

/-- Each pinned block has a buffer of its own, so they cannot be more than the
buffers; a block that is not pinned and in the cache leaves one less. -/
theorem Cached.length_lt (h : Cached c disk pins target) (hnodup : pins.Nodup) (hb : b ∉ pins)
    (hi : (c.buf i).blockno = some b) : pins.length < nbuf := by
  have hsub : pins.toFinset ⊆
      (Finset.univ.filter fun j => (c.buf j).dirty = true).image
        fun j => (c.buf j).blockno.getD 0 := by
    intro b' hb'
    obtain ⟨j, hj, hdirty, _⟩ := h.pinned b' (List.mem_toFinset.mp hb')
    exact Finset.mem_image.mpr ⟨j, by simp [hdirty], by simp [hj]⟩
  have hlt : (Finset.univ.filter fun j => (c.buf j).dirty = true).card < nbuf := by
    have hssub : (Finset.univ.filter fun j => (c.buf j).dirty = true) ⊂ Finset.univ :=
      Finset.filter_ssubset.mpr ⟨i, Finset.mem_univ i, by simp [h.not_dirty hb hi]⟩
    simpa using Finset.card_lt_card hssub
  calc pins.length = pins.toFinset.card := (List.toFinset_card_of_nodup hnodup).symm
    _ ≤ _ := (Finset.card_le_card hsub).trans Finset.card_image_le
    _ < nbuf := hlt

end

end Xv6.Log
