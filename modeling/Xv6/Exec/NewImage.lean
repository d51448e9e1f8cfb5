import Xv6.Exec.ProgramFile

/-! What every stage of `exec` keeps of the new address space: its pages come
from the free lists, and the kernel half is left alone. The `exec` of the machine is
this one on the image of a file. -/
namespace Xv6.Exec
open Vm

/-- Every page of the directory is one that `kalloc` has given for it. -/
structure FromLists (free : Nat → FreeLists) (d : PageDir) : Prop where
  wf : d.Wf
  maps : ∀ u q, d.maps u = some q → (free u).page.head? = some q

section

variable {free : Nat → FreeLists} {d d' : PageDir} {m m' : Mem} {s s' : Space} {v n sz newsz : Nat}
  {ok : Bool}

theorem FromLists.fresh (h : d.Fresh) : FromLists free d where
  wf := h.wf
  maps := by
    intro u q hq
    obtain ⟨pte, hpte, _⟩ := maps_eq_some.mp hq
    rw [h.present u] at hpte
    cases hpte

theorem FromLists.allocTurn (h : FromLists free d) (hv : v < upages)
    (hturn : allocTurn (free v) v d m = some (ok, d', m')) : FromLists free d' := by
  rcases allocTurn_cases hturn with ⟨_, rfl, _⟩ | ⟨q, hq, _, _, ⟨m1, m2, _, hinstall⟩ | ⟨rfl, _⟩⟩
  · exact h
  · refine ⟨hinstall.wf h.wf hv, fun u r hr => ?_⟩
    by_cases huv : u = v
    · obtain ⟨pte, hpte, rfl⟩ := maps_eq_some.mp hr
      rw [huv, hinstall.entry] at hpte
      cases hpte
      rw [huv]
      exact hq
    · rw [maps_congr (hinstall.others u huv)] at hr
      exact h.maps u r hr
  · exact h

theorem allocTurns_keeps {keeps : PageDir → Mem → Prop}
    (hkeep : ∀ {u d m ok d' m'}, u < upages → keeps d m →
      allocTurn (free u) u d m = some (ok, d', m') → keeps d' m')
    (h : keeps d m) (hv : v + n ≤ upages)
    (hturns : allocTurns free n v d m = some (ok, d', m')) : keeps d' m' := by
  induction n generalizing v d m with
  | zero =>
    cases hturns
    exact h
  | succ n ih =>
    unfold allocTurns at hturns
    split at hturns
    · cases hturns
    · rename_i d1 m1 hturn
      cases hturns
      exact hkeep (by omega) h hturn
    · rename_i d1 m1 hturn
      exact ih (hkeep (by omega) h hturn) (by omega) hturns

theorem FromLists.allocTurns (h : FromLists free d) (hv : v + n ≤ upages)
    (hturns : allocTurns free n v d m = some (ok, d', m')) : FromLists free d' :=
  @allocTurns_keeps _ _ _ _ _ _ _ _ (fun d _ => FromLists free d)
    (fun hu hd hturn => hd.allocTurn hu hturn) h hv hturns

theorem FromLists.unmaps {release : Mem → Nat → Option Mem} {last : Nat} (h : FromLists free d)
    (hunmaps : Unmaps release last v d m d' m') : FromLists free d' where
  wf := hunmaps.wf h.wf
  maps := by
    intro u q hq
    obtain ⟨pte, hpte, hppn⟩ := maps_eq_some.mp hq
    exact h.maps u q (maps_eq_some.mpr ⟨pte, hunmaps.sub hpte, hppn⟩)

theorem FromLists.allocuvm (h : FromLists free s.pgdir)
    (halloc : s.allocuvm free newsz = some (sz, d, m)) : FromLists free d := by
  unfold Space.allocuvm at halloc
  split at halloc
  · cases halloc
    exact h
  · rename_i hlow
    split at halloc
    · cases halloc
      exact h
    · rename_i hle
      have hroom : pages s.sz + (pages newsz - pages s.sz) ≤ upages := by
        have hmono := pages_mono (show s.sz ≤ newsz by omega)
        have hbound := pages_le_upages (show newsz ≤ kernbase by omega)
        omega
      split at halloc
      · cases halloc
      · rename_i d1 m1 hturns
        cases halloc
        exact h.allocTurns hroom hturns
      · rename_i d1 m1 hturns
        have h1 := h.allocTurns hroom hturns
        split at halloc
        · cases halloc
        · rename_i sz' d2 m2 hdealloc
          cases halloc
          rcases unmapRange_cases hdealloc with ⟨_, rfl, _⟩ | ⟨_, hunmaps⟩
          · exact h1
          · exact h1.unmaps hunmaps

theorem allocuvm_result (h : s.allocuvm free newsz = some (sz, d, m)) :
    sz = 0 ∨ newsz < kernbase ∧ sz = max s.sz newsz := by
  unfold Space.allocuvm at h
  split at h
  · cases h
    exact Or.inl rfl
  · rename_i hlow
    split at h
    · cases h
      exact Or.inr ⟨by omega, by omega⟩
    · split at h
      · cases h
      · cases h
        exact Or.inr ⟨by omega, by omega⟩
      · split at h
        · cases h
        · cases h
          exact Or.inl rfl

theorem allocuvm_stack (h : Space.allocuvm free { s with sz := pages s.sz * pgsize }
      (pages s.sz * pgsize + 2 * pgsize) = some (sz, d, m)) (hsz : sz ≠ 0) :
    sz = (pages s.sz + 1 + 1) * pgsize ∧ pages s.sz + 1 < upages := by
  obtain ⟨hbound, hsize⟩ := (allocuvm_result h).resolve_left hsz
  have hupages : upages = 524288 := by decide
  simp only [pgsize, kernbase] at *
  omega

theorem FromLists.clearpteu {va : Nat} (h : FromLists free d)
    (hclear : clearpteu d va = some d') : FromLists free d' := by
  unfold Vm.clearpteu at hclear
  split at hclear
  · cases hclear
  · rename_i pte hlookup
    cases hclear
    refine ⟨wf_setPte h.wf fun hp => ?_, fun u q hq => ?_⟩
    · rw [h.wf.clean _ pte hlookup hp]
      rfl
    · refine h.maps u q ?_
      rw [← hq]
      exact (maps_setPte_same { pte with flags := { pte.flags with u := false } } hlookup rfl rfl
        u).symm

theorem FromLists.loadSegments {file : List UInt8} {off : Nat} (h : FromLists free s.pgdir)
    (hload : loadSegments free file n off s = some (ok, s')) : FromLists free s'.pgdir := by
  induction n generalizing off s with
  | zero =>
    cases hload
    exact h
  | succ n ih =>
    unfold Exec.loadSegments at hload
    split at hload
    · cases hload
      exact h
    · rename_i bytes hbytes
      dsimp only at hload
      split at hload
      · cases hload
        exact h
      · split at hload
        · exact ih h hload
        · split at hload
          · cases hload
            exact h
          · split at hload
            · cases hload
            · rename_i sz d m halloc
              have h1 := h.allocuvm halloc
              split at hload
              · cases hload
                exact h1
              · split at hload
                · cases hload
                · cases hload
                  exact h1
                · exact ih (s := ⟨sz, d, _⟩) h1 hload

end

/-- The directory maps the frame, or the frame holds one of its tables. -/
def Uses (d : PageDir) (q : Nat) : Prop :=
  0 < d.own q ∨ ∃ u, d.maps u = some q

section

variable {d : PageDir} {m m' : Mem} {q : Nat}

theorem kfreeMany_frame {items : List Nat} (hq : q ∉ items) (h : kfreeMany items m = some m') :
    m'.frame q = m.frame q := by
  induction items generalizing m with
  | nil =>
    cases h
    rfl
  | cons x rest ih =>
    obtain ⟨m1, hx, hrest⟩ := Option.bind_eq_some_iff.mp h
    rw [ih (fun hmem => hq (List.mem_cons_of_mem x hmem)) hrest, kfree_some hx]
    have hne : q ≠ x := by
      rintro rfl
      exact hq List.mem_cons_self
    exact Function.update_of_ne hne _ _

theorem freevm_frame (h : freevm m d = some m') (hq : ¬ Uses d q) : m'.frame q = m.frame q := by
  obtain ⟨d1, m1, hunmaps, hmany⟩ := freevm_cases h
  have hitems : q ∉ d1.tables ++ [d1.page] := by
    intro hmem
    refine hq (Or.inl ?_)
    rw [← hunmaps.own, ← listed_tables]
    exact List.count_pos_iff.mpr hmem
  rw [kfreeMany_frame hitems hmany]
  exact hunmaps.frame fun u _ _ hu => hq (Or.inr ⟨u, hu⟩)

end

/-! ### The machine's `exec` -/

/-- The header as the machine's `exec` has it. -/
def phdr (file : List UInt8) (ph : Proghdr) : Phdr where
  load := ph.type = elfProgLoad
  vaddr := ph.vaddr
  memsz := ph.memsz
  filesz := ph.filesz
  data := fun j => (file[ph.off + j]?).getD 0
  avail := min file.length (wordSize - 1) - ph.off

def phdrs (file : List UInt8) : Nat → Nat → List (Option Phdr)
  | 0, _ => []
  | n + 1, off =>
    ((readi file off proghdrSize).bind fun bytes =>
      if bytes.length = proghdrSize then some (phdr file (proghdr bytes)) else none) ::
        phdrs file n ((off + proghdrSize) % wordSize)

def image (file : List UInt8) (argv : List (List UInt8)) : Image :=
  let bytes := (readi file 0 elfhdrSize).getD []
  let elf := elfhdr bytes
  { valid := elfhdrSize ≤ bytes.length && elf.magic = elfMagic
    phdrs := phdrs file elf.phnum elf.phoff
    argv := argv }

section

variable {file : List UInt8} {ph : Proghdr} {d d' : PageDir} {m m' : Mem} {n i off sz sz' : Nat}
  {argv : List (List UInt8)}

/-- A turn of `loaduvm` that the bytes of the file are enough for. -/
theorem readi_phdr (hi : i < pages ph.filesz)
    (havail : min ph.filesz (i * pgsize + pgsize) ≤ (phdr file ph).avail) :
    ∃ bytes, readi file ((ph.off + i * pgsize) % wordSize) (min (ph.filesz - i * pgsize) pgsize) =
        some bytes ∧ bytes.length = min (ph.filesz - i * pgsize) pgsize ∧
      ∀ page : Page, overwrite page bytes = fun off =>
        if i * pgsize + off.val < ph.filesz then (phdr file ph).data (i * pgsize + off.val)
        else page off := by
  have hroom : min ph.filesz (i * pgsize + pgsize) ≤ min file.length (wordSize - 1) - ph.off :=
    havail
  simp only [pages_eq] at hi
  simp only [pgsize, wordSize] at hroom ⊢
  have hoff : (ph.off + i * 4096) % 0x100000000 = ph.off + i * 4096 :=
    Nat.mod_eq_of_lt (by omega)
  refine ⟨(file.drop (ph.off + i * 4096)).take (min (ph.filesz - i * 4096) 4096), ?_, ?_,
    fun page => funext fun off => ?_⟩
  · rw [hoff, readi, if_neg (by simp only [wordSize]; omega)]
  · rw [List.length_take, List.length_drop]
    omega
  · have hpage := off.isLt
    simp only [pgsize] at hpage
    by_cases hlt : i * 4096 + off.val < ph.filesz
    · simp only [overwrite, phdr, if_pos hlt]
      rw [List.getElem?_take_of_lt (by omega), List.getElem?_drop,
        List.getElem?_eq_getElem (by omega), List.getElem?_eq_getElem (by omega)]
      simp only [Option.getD_some, Nat.add_assoc]
    · rw [if_neg hlt, overwrite, List.getElem?_eq_none (by rw [List.length_take]; omega)]
      rfl

theorem loadLoop_image (hd : d.Wf) (hin : i + n = pages ph.filesz)
    (h : Vm.loadLoop (phdr file ph) d n i m = some (true, m')) :
    loadLoop file ph d n i m = some (true, m') := by
  induction n generalizing i m with
  | zero => exact h
  | succ n ih =>
    unfold Vm.loadLoop at h
    split at h
    · cases h
    · rename_i pte hlookup
      dsimp only at h
      split at h
      · rename_i havail
        obtain ⟨bytes, hread, hlength, hpage⟩ := readi_phdr (by omega) havail
        have hentry : d.lookup (ph.vaddr / pgsize + i) = some pte := hlookup
        have hlow := lookup_lt hd hentry
        have hwords : upages ≤ wordSize / pgsize := by decide
        have hpte : pteAddr d ((ph.vaddr / pgsize + i) % (wordSize / pgsize)) = some pte.ppn := by
          rw [Nat.mod_eq_of_lt (by omega), pteAddr, if_pos hlow, hentry]
          rfl
        unfold loadLoop
        rw [hpte]
        dsimp only
        rw [hread]
        dsimp only
        rw [if_pos hlength, hpage]
        exact ih (by omega) h
      · cases h

theorem loaduvm_image (hd : d.Wf) (h : Vm.loaduvm m d (phdr file ph) = some (true, m')) :
    loaduvm file ph d m = some (true, m') := by
  obtain ⟨haligned, hloop⟩ := Option.ite_none_right_eq_some.mp h
  rw [loaduvm, if_pos (show ph.vaddr % pgsize = 0 from haligned)]
  exact loadLoop_image hd (Nat.zero_add _) hloop

/-- The lists are chosen from the last stage backwards; `tail` is what the later ones need. -/
theorem loadSegments_image (hd : d.Wf) {tail : (Nat → FreeLists) → Prop}
    (htail : ∃ free : Nat → FreeLists, ∀ free', (∀ v, pages sz' ≤ v → free' v = free v) →
      tail free')
    (h : Vm.loadSegments (phdrs file n off) sz d m = some (some sz', d', m')) :
    ∃ free : Nat → FreeLists, ∀ free', (∀ v, pages sz ≤ v → free' v = free v) →
      loadSegments free' file n off ⟨sz, d, m⟩ = some (true, ⟨sz', d', m'⟩) ∧ tail free' := by
  induction n generalizing off sz d m with
  | zero =>
    cases h
    obtain ⟨free, hfree⟩ := htail
    exact ⟨free, fun free' hsame => ⟨rfl, hfree free' hsame⟩⟩
  | succ n ih =>
    unfold phdrs at h
    cases hread : readi file off proghdrSize with
    | none =>
      rw [hread] at h
      cases h
    | some bytes =>
      rw [hread] at h
      by_cases hlength : bytes.length = proghdrSize
      case neg =>
        rw [Option.bind_some, if_neg hlength] at h
        cases h
      rw [Option.bind_some, if_pos hlength, Vm.loadSegments] at h
      simp only [loadSegments, hread, hlength]
      by_cases htype : (proghdr bytes).type = elfProgLoad
      case neg =>
        have hload : (phdr file (proghdr bytes)).load = false := decide_eq_false htype
        rw [if_pos hload] at h
        simpa [htype] using ih hd h
      have hload : (phdr file (proghdr bytes)).load ≠ false := by simp [phdr, htype]
      rw [if_neg hload] at h
      split at h
      · cases h
      · rename_i hfilesz
        have hfits : ¬ (proghdr bytes).memsz < (proghdr bytes).filesz := hfilesz
        split at h
        · cases h
        · cases h
        · rename_i sz1 d1 m1 hsz halloc
          have hsz1 : sz1 ≠ 0 := hsz
          change Vm.allocuvm m d sz (((proghdr bytes).vaddr + (proghdr bytes).memsz) % wordSize) =
            _ at halloc
          split at h
          · cases h
          · cases h
          · rename_i m2 hload1
            have hwf := wf_allocuvm hd halloc
            obtain ⟨first, hfirst⟩ := exists_allocuvm m d sz
              (((proghdr bytes).vaddr + (proghdr bytes).memsz) % wordSize)
            rw [halloc] at hfirst
            obtain ⟨-, hsize⟩ := (allocuvm_result (hfirst first fun _ _ _ => rfl)).resolve_left hsz1
            have hold := pages_mono (hsize ▸ le_max_left sz _)
            have hnew := pages_mono (hsize ▸ le_max_right sz _)
            obtain ⟨later, hlater⟩ := ih hwf h
            refine ⟨fun v => if v < pages sz1 then first v else later v, fun free' hsame => ?_⟩
            have hgiven := hfirst free' fun v hlo hhi =>
              (hsame v hlo).trans (if_pos (hhi.trans_le hnew))
            have hrest := hlater free' fun v hv =>
              (hsame v (hold.trans hv)).trans (if_neg (Nat.not_lt.mpr hv))
            simpa [htype, hfits, hgiven, hsz1, loaduvm_image hwf hload1] using hrest

theorem pushStack_image {img : Image} (h : copyArgs img sz d m = some (true, m')) :
    ∃ esp, pushStack img.argv sz d m = some (some esp, m') := by
  unfold copyArgs at h
  split at h
  · cases h
  · cases h
  · rename_i sp ustack m1 hpush
    refine ⟨argBlockAddr sp ustack, ?_⟩
    simp [pushStack, pushBlock, hpush, h]

theorem setupStack_image {img : Image} (h : Vm.setupStack img sz d m = some (some sz', d', m')) :
    ∃ esp, ∃ free : Nat → FreeLists, ∀ free', (∀ v, pages sz ≤ v → free' v = free v) →
      setupStack free' img.argv ⟨sz, d, m⟩ = some (some esp, ⟨sz', d', m'⟩) := by
  obtain ⟨free, hfree⟩ := exists_allocuvm m d (pages sz * pgsize) (pages sz * pgsize + 2 * pgsize)
  have hround : pages (pages sz * pgsize) = pages sz := by
    simp only [pages_eq, pgsize]
    omega
  unfold Vm.setupStack at h
  split at h
  · cases h
  · cases h
  · rename_i sz1 d1 m1 hsz halloc
    have hsz1 : sz1 ≠ 0 := hsz
    split at h
    · cases h
    · rename_i d2 hclear
      split at h
      · cases h
      · cases h
      · rename_i m2 hargs
        cases h
        obtain ⟨esp, hpush⟩ := pushStack_image hargs
        refine ⟨esp, free, fun free' hsame => ?_⟩
        have hgiven := hfree free' fun v hlo _ => hsame v (hround.ge.trans hlo)
        rw [halloc] at hgiven
        unfold setupStack
        dsimp only
        rw [hgiven]
        dsimp only
        rw [if_neg hsz1, hclear]
        dsimp only
        rw [hpush]

/-- Where the machine's `exec` loads the image of a file, `exec` loads the file, with free lists
that nobody else changes. -/
theorem loadImage_image (h : Vm.loadImage m (image file argv) = some (some (d, sz), m')) :
    ∃ free loaded, loadImage free file argv m = some (some loaded, m') ∧
      loaded.space = ⟨sz, d, m'⟩ := by
  unfold Vm.loadImage at h
  split at h
  · cases h
  · rename_i hvalid
    obtain ⟨hlength, hmagic⟩ : elfhdrSize ≤ ((readi file 0 elfhdrSize).getD []).length ∧
        (elfhdr ((readi file 0 elfhdrSize).getD [])).magic = elfMagic := by
      simpa [image] using hvalid
    split at h
    · cases h
    · rename_i d0 m0 hsetup
      have hkernel : setupkvm { m with freelist := m.freelist } = (some d0, m0) := hsetup
      split at h
      · cases h
      · obtain ⟨_, _, hbad⟩ := Option.map_eq_some_iff.mp h
        cases hbad
      · rename_i sz1 d1 m1 hload
        split at h
        · cases h
        · obtain ⟨_, _, hbad⟩ := Option.map_eq_some_iff.mp h
          cases hbad
        · rename_i sz2 d2 m2 hstack
          cases h
          obtain ⟨esp, htail⟩ := setupStack_image hstack
          obtain ⟨free, hfree⟩ := loadSegments_image (fresh_setupkvm hsetup).wf htail hload
          obtain ⟨hsegments, hpushed⟩ := hfree free fun _ _ => rfl
          refine ⟨⟨m.freelist, free⟩, ⟨⟨sz, d, m'⟩,
            (elfhdr ((readi file 0 elfhdrSize).getD [])).entry, esp⟩, ?_, rfl⟩
          have hargs : setupStack free argv ⟨sz1, d1, m1⟩ = some (some esp, ⟨sz, d, m'⟩) := hpushed
          simp [loadImage, Nat.not_lt.mpr hlength, hmagic, hkernel, hsegments, hargs]

end

end Xv6.Exec
