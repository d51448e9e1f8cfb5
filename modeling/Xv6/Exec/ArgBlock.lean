import Xv6.Exec.NewImage

/-! The argument block that `exec` leaves on the new stack. The page below the
stack is not accessible, so that a `copyout` that succeeds has stayed in the
stack page. -/
namespace Xv6.Exec
open Vm

def userByte (d : PageDir) (m : Mem) (va : Nat) : Option UInt8 :=
  (d.present (va / pgsize)).map fun pte => m.frame pte.ppn (offset va)

def Holds (d : PageDir) (m : Mem) (va : Nat) (bytes : List UInt8) : Prop :=
  ∀ k (hk : k < bytes.length), userByte d m (va + k) = some bytes[k]

section Copyout

variable {d : PageDir} {m m' : Mem} {v va q : Nat} {bytes : List UInt8}

theorem uva2ka_present (h : uva2ka d v = some (some q)) :
    ∃ pte, d.present v = some pte ∧ pte.flags.u = true ∧ pte.ppn = q := by
  unfold uva2ka at h
  split at h
  · cases h
  · split at h
    · cases h
    · rename_i pte hlookup
      have huser := Option.ite_none_right_eq_some.mp (Option.some.inj h)
      obtain ⟨hp, hu⟩ := Bool.and_eq_true_iff.mp huser.1
      exact ⟨pte, present_eq_some.mpr ⟨hlookup, hp⟩, hu, Option.some.inj huser.2⟩

theorem copyoutLoop_user {fuel : Nat} (hfuel : bytes.length ≤ fuel)
    (h : copyoutLoop d fuel va bytes m = some (true, m')) {x : Nat} (hlo : va ≤ x)
    (hhi : x < va + bytes.length) : ∃ q, uva2ka d (x / pgsize) = some (some q) := by
  induction fuel generalizing va bytes m with
  | zero => omega
  | succ fuel ih =>
    cases bytes with
    | nil =>
      simp only [List.length_nil] at hhi
      omega
    | cons byte rest =>
      unfold copyoutLoop at h
      split at h
      · cases h
      · cases h
      · rename_i q hq
        by_cases hpage : x / pgsize = va / pgsize
        · exact ⟨q, by rw [hpage, hq]⟩
        · have hmod := Nat.mod_lt va (show 0 < pgsize by decide)
          have hva := Nat.div_add_mod va pgsize
          refine ih ?_ h ?_ ?_
          · rw [List.length_drop]
            omega
          · simp only [pgsize] at hpage hlo ⊢
            omega
          · rw [List.length_drop]
            simp only [pgsize] at hpage hlo hhi hmod hva ⊢
            omega

section

variable (hlen : 0 < bytes.length) (hfit : va % pgsize + bytes.length ≤ pgsize)
  (h : copyout m d va bytes = some (true, m'))
include hlen hfit h

theorem copyout_page : ∃ q, uva2ka d (va / pgsize) = some (some q) ∧ m' = m.setFrame q (fun off =>
      if va % pgsize ≤ off.val then (bytes[off.val - va % pgsize]?).getD (m.frame q off)
      else m.frame q off) := by
  cases bytes with
  | nil => cases hlen
  | cons byte rest =>
    rw [copyout, List.length_cons] at h
    unfold copyoutLoop at h
    split at h
    · cases h
    · cases h
    · rename_i q hq
      have hdrop : (byte :: rest).drop (pgsize - va % pgsize) = [] := by
        rw [List.drop_eq_nil_iff]
        omega
      dsimp only at h
      rw [hdrop, copyoutLoop] at h
      cases h
      exact ⟨q, hq, rfl⟩

theorem copyout_bytes : Holds d m' va bytes ∧
      ∀ x, x / pgsize = va / pgsize → x < va ∨ va + bytes.length ≤ x →
        userByte d m' x = userByte d m x := by
  obtain ⟨q, hq, rfl⟩ := copyout_page hlen hfit h
  obtain ⟨pte, hpte, _, rfl⟩ := uva2ka_present hq
  have hva := Nat.div_add_mod va pgsize
  have hmod := Nat.mod_lt va (show 0 < pgsize by decide)
  refine ⟨fun k hk => ?_, fun x hx hout => ?_⟩
  · have hpage : (va + k) / pgsize = va / pgsize := by
      simp only [pgsize] at hfit hmod hva ⊢
      omega
    have hoff : (va + k) % pgsize = va % pgsize + k := by
      simp only [pgsize] at hfit hmod hva ⊢
      omega
    simp only [userByte, offset, hpage, hpte, Option.map_some, Mem.setFrame, Function.update_self,
      hoff, Nat.le_add_right, if_true, Nat.add_sub_cancel_left, List.getElem?_eq_getElem hk,
      Option.getD_some]
  · have hpresent : d.present (x / pgsize) = some pte := by rw [hx, hpte]
    have hxmod := Nat.div_add_mod x pgsize
    simp only [userByte, offset, hpresent, Option.map_some, Mem.setFrame, Function.update_self]
    congr 1
    rw [hx] at hxmod
    split
    · rename_i hle
      have hnone : bytes[x % pgsize - va % pgsize]? = none := by
        rw [List.getElem?_eq_none_iff]
        omega
      rw [hnone, Option.getD_none]
    · rfl

end

end Copyout

/-! ### The stack page -/

/-- Page `v` is the stack and the page below it is not accessible. -/
structure Stack (d : PageDir) (v : Nat) : Prop where
  pos : 0 < v
  low : v < upages
  guard : ∀ q, uva2ka d (v - 1) ≠ some (some q)
  kernel : ∀ w q, upages ≤ w → uva2ka d w ≠ some (some q)

/-- The address of `len` bytes below `sp`, as `exec` computes it. -/
def below (sp len : Nat) : Nat :=
  (sp + wordSize - len) % wordSize / 4 * 4

section

variable {d : PageDir} {m m' : Mem} {v sp : Nat} {bytes : List UInt8}

section

variable (hd : Stack d v) (hlo : v * pgsize ≤ sp) (hhi : sp ≤ (v + 1) * pgsize)
  (hlen : 0 < bytes.length) (hbig : bytes.length ≤ kernbase)
  (h : copyout m d (below sp bytes.length) bytes = some (true, m'))
include hd hlo hhi hlen hbig h

/-- The bytes end just below `sp`, so that with a start below the stack page they
would cover a part of the page below. -/
theorem push_inside :
    v * pgsize ≤ below sp bytes.length ∧ below sp bytes.length + bytes.length ≤ sp := by
  have hpos := hd.pos
  have hlow := hd.low
  have hupages : upages = 524288 := by decide
  have huser : ∀ x, below sp bytes.length ≤ x → x < below sp bytes.length + bytes.length →
      x / pgsize ≠ v - 1 ∧ ¬ upages ≤ x / pgsize := by
    intro x hx hx'
    obtain ⟨q, hq⟩ := copyoutLoop_user le_rfl h hx hx'
    refine ⟨fun hguard => ?_, fun hkernel => ?_⟩
    · rw [hguard] at hq
      exact hd.guard q hq
    · exact hd.kernel _ q hkernel hq
  have hfirst := huser (below sp bytes.length) le_rfl (by omega)
  simp only [below, wordSize, pgsize, kernbase] at *
  by_cases hwrap : bytes.length ≤ sp
  · refine ⟨?_, by omega⟩
    by_contra hunder
    by_cases hfar : (sp + 4294967296 - bytes.length) % 4294967296 / 4 * 4 < (v - 1) * 4096
    · have hedge := huser ((v - 1) * 4096) (by omega) (by omega)
      omega
    · omega
  · omega

theorem push_bytes : Holds d m' (below sp bytes.length) bytes ∧
      ∀ x, sp ≤ x → x < (v + 1) * pgsize → userByte d m' x = userByte d m x := by
  obtain ⟨hin, hend⟩ := push_inside hd hlo hhi hlen hbig h
  have hfit : below sp bytes.length % pgsize + bytes.length ≤ pgsize := by
    simp only [pgsize] at hin hhi ⊢
    omega
  obtain ⟨hholds, hothers⟩ := copyout_bytes hlen hfit h
  refine ⟨hholds, fun x hx hx' => hothers x ?_ (Or.inr (by omega))⟩
  simp only [pgsize] at hin hhi hx' ⊢
  omega

end

end

/-! ### The strings -/

/-- The strings lie one below the other, from `sp` down to `sp'`. -/
inductive Stacked (base : Nat) : List (List UInt8) → List Nat → Nat → Nat → Prop where
  | done {sp} : Stacked base [] [] sp sp
  | push {arg argv ptr ptrs sp sp'} (hlo : base ≤ ptr) (haligned : ptr % 4 = 0)
      (hend : ptr + (arg.length + 1) ≤ sp) (hrest : Stacked base argv ptrs ptr sp') :
      Stacked base (arg :: argv) (ptr :: ptrs) sp sp'

section

variable {d : PageDir} {m m' : Mem} {v base sp sp' : Nat} {argv : List (List UInt8)}
  {ptrs : List Nat}

theorem Stacked.length (h : Stacked base argv ptrs sp sp') : ptrs.length = argv.length := by
  induction h with
  | done => rfl
  | push _ _ _ _ ih => rw [List.length_cons, List.length_cons, ih]

theorem Stacked.bounds (h : Stacked base argv ptrs sp sp') (hlo : base ≤ sp)
    (haligned : sp % 4 = 0) : base ≤ sp' ∧ sp' ≤ sp ∧ sp' % 4 = 0 := by
  induction h with
  | done => exact ⟨hlo, le_rfl, haligned⟩
  | push hptr halign hend _ ih =>
    obtain ⟨hbase, hle, hmod⟩ := ih hptr halign
    exact ⟨hbase, by omega, hmod⟩

def copies (argv : List (List UInt8)) (ptrs : List Nat) : List (Nat × Nat) :=
  List.zipWith (fun arg ptr => (ptr, arg.length + 1)) argv ptrs

def Apart (r r' : Nat × Nat) : Prop :=
  r.1 + r.2 ≤ r'.1 ∨ r'.1 + r'.2 ≤ r.1

theorem Stacked.inside (h : Stacked base argv ptrs sp sp') {r : Nat × Nat}
    (hr : r ∈ copies argv ptrs) : base ≤ r.1 ∧ sp' ≤ r.1 ∧ r.1 + r.2 ≤ sp := by
  induction h with
  | done => cases hr
  | @push arg argv ptr ptrs sp sp' hlo haligned hend hrest ih =>
    have hle := (hrest.bounds hlo haligned).2.1
    rcases List.mem_cons.mp hr with rfl | hlater
    · exact ⟨hlo, hle, hend⟩
    · obtain ⟨hbase, hlow, hhigh⟩ := ih hlater
      exact ⟨hbase, hlow, by omega⟩

theorem Stacked.apart (h : Stacked base argv ptrs sp sp') : (copies argv ptrs).Pairwise Apart := by
  induction h with
  | done => exact List.Pairwise.nil
  | push hlo haligned hend hrest ih =>
    refine List.pairwise_cons.mpr ⟨fun r hr => Or.inr ?_, ih⟩
    exact (hrest.inside hr).2.2

theorem Stacked.pointer_lt (h : Stacked base argv ptrs sp sp') {ptr : Nat} (hptr : ptr ∈ ptrs) :
    ptr < sp := by
  induction h with
  | done => cases hptr
  | push _ _ hend _ ih =>
    rcases List.mem_cons.mp hptr with rfl | hlater
    · omega
    · have := ih hlater
      omega

theorem Holds.congr {va : Nat} {bytes : List UInt8} (h : Holds d m va bytes)
    (hsame : ∀ x, va ≤ x → x < va + bytes.length → userByte d m' x = userByte d m x) :
    Holds d m' va bytes := by
  intro k hk
  rw [hsame (va + k) (by omega) (by omega)]
  exact h k hk

theorem Stacked.keeps (h : Stacked base argv ptrs sp sp')
    (hstrings : List.Forall₂ (fun arg ptr => Holds d m ptr (arg ++ [0])) argv ptrs)
    (hsame : ∀ x, sp' ≤ x → x < sp → userByte d m' x = userByte d m x) :
    List.Forall₂ (fun arg ptr => Holds d m' ptr (arg ++ [0])) argv ptrs := by
  induction h with
  | done => exact .nil
  | @push arg argv ptr ptrs sp sp' hlo haligned hend hrest ih =>
    obtain ⟨hfirst, hlater⟩ := List.forall₂_cons.mp hstrings
    have hle := (hrest.bounds hlo haligned).2.1
    have hlen : (arg ++ [0]).length = arg.length + 1 := by simp
    refine .cons (hfirst.congr fun x hx hx' => hsame x (by omega) (by omega)) (ih hlater ?_)
    exact fun x hx hx' => hsame x hx (by omega)

theorem pushArgs_stacked (hd : Stack d v) {ustack ustack' : List Nat} (hlo : v * pgsize ≤ sp)
    (hhi : sp ≤ (v + 1) * pgsize) (hbig : ∀ arg ∈ argv, arg.length < kernbase)
    (h : pushArgs d argv sp ustack m = some (some (sp', ustack'), m')) :
    ∃ ptrs, ustack' = ustack ++ ptrs ∧ Stacked (v * pgsize) argv ptrs sp sp' ∧
      List.Forall₂ (fun arg ptr => Holds d m' ptr (arg ++ [0])) argv ptrs ∧
      ∀ x, sp ≤ x → x < (v + 1) * pgsize → userByte d m' x = userByte d m x := by
  induction argv generalizing sp ustack m with
  | nil =>
    cases h
    exact ⟨[], (List.append_nil _).symm, .done, .nil, fun _ _ _ => rfl⟩
  | cons arg argv ih =>
    unfold pushArgs at h
    split at h
    · cases h
    · dsimp only at h
      have hlen : (arg ++ [0]).length = arg.length + 1 := by simp
      have haddr : (sp + wordSize - (arg.length + 1)) % wordSize / 4 * 4 =
          below sp (arg ++ [0]).length := by rw [hlen, below]
      rw [haddr] at h
      have harg := hbig arg List.mem_cons_self
      split at h
      · cases h
      · cases h
      · rename_i m1 hcopy
        obtain ⟨hin, hend⟩ := push_inside hd hlo hhi (by omega) (by omega) hcopy
        obtain ⟨hholds, hkept⟩ := push_bytes hd hlo hhi (by omega) (by omega) hcopy
        obtain ⟨ptrs, hptrs, hstacked, hstrings, hlater⟩ := ih hin (by omega)
          (fun arg harg => hbig arg (List.mem_cons_of_mem _ harg)) h
        refine ⟨below sp (arg ++ [0]).length :: ptrs, by rw [hptrs, List.append_assoc]; rfl,
          .push hin (Nat.mul_mod_left ..) (by omega) hstacked, .cons ?_ hstrings, ?_⟩
        · exact hholds.congr fun x hx hx' => hlater x hx (by omega)
        · intro x hx hx'
          rw [hlater x (by omega) hx', hkept x hx hx']

end

/-! ### The words below the strings -/

def userWord (d : PageDir) (m : Mem) (va : Nat) : Option Nat :=
  match userByte d m va, userByte d m (va + 1), userByte d m (va + 2), userByte d m (va + 3) with
  | some b0, some b1, some b2, some b3 =>
    some (b0.toNat + 256 * b1.toNat + 65536 * b2.toNat + 16777216 * b3.toNat)
  | _, _, _, _ => none

section

variable {d : PageDir} {m : Mem} {va word : Nat} {words : List Nat}

theorem Holds.readWord (h : Holds d m va (wordBytes word)) (hword : word < wordSize) :
    userWord d m va = some word := by
  have hfour : (wordBytes word).length = 4 := rfl
  have h0 := h 0 (by omega)
  have h1 := h 1 (by omega)
  have h2 := h 2 (by omega)
  have h3 := h 3 (by omega)
  simp only [wordBytes, List.getElem_cons_zero, List.getElem_cons_succ, Nat.add_zero] at h0 h1 h2 h3
  simp only [userWord, h0, h1, h2, h3, UInt8.toNat_ofNat']
  simp only [wordSize] at hword
  congr 1
  omega

theorem Holds.split {left right : List UInt8} (h : Holds d m va (left ++ right)) :
    Holds d m va left ∧ Holds d m (va + left.length) right := by
  refine ⟨fun k hk => ?_, fun k hk => ?_⟩
  · rw [h k (by rw [List.length_append]; omega), List.getElem_append_left hk]
  · have hk' : left.length + k < (left ++ right).length := by
      rw [List.length_append]
      omega
    rw [Nat.add_assoc, h _ hk', List.getElem_append_right (Nat.le_add_right ..)]
    simp only [Nat.add_sub_cancel_left]

theorem Holds.nthWord (h : Holds d m va (words.flatMap wordBytes)) {i : Nat}
    (hi : words[i]? = some word) (hword : word < wordSize) :
    userWord d m (va + 4 * i) = some word := by
  induction words generalizing va i with
  | nil => cases hi
  | cons first rest ih =>
    rw [List.flatMap_cons] at h
    obtain ⟨hfirst, hrest⟩ := h.split
    cases i with
    | zero =>
      rw [List.getElem?_cons_zero] at hi
      cases hi
      exact hfirst.readWord hword
    | succ i =>
      rw [List.getElem?_cons_succ] at hi
      have hlater := ih hrest hi
      have haddr : va + (wordBytes first).length + 4 * i = va + 4 * (i + 1) := by
        have hfour : (wordBytes first).length = 4 := rfl
        omega
      rw [haddr] at hlater
      exact hlater

theorem length_wordBytes (words : List Nat) :
    (words.flatMap wordBytes).length = 4 * words.length := by
  induction words with
  | nil => rfl
  | cons first rest ih =>
    rw [List.flatMap_cons, List.length_append, ih, List.length_cons]
    have hfour : (wordBytes first).length = 4 := rfl
    omega

end

/-- What the program finds at its stack pointer. -/
structure ArgumentBlock (d : PageDir) (m : Mem) (sz esp : Nat) (argv : List (List UInt8))
    (ptrs : List Nat) : Prop where
  aligned : esp % 4 = 0
  returnPc : userWord d m esp = some 0xffffffff
  argc : userWord d m (esp + 4) = some argv.length
  vector : userWord d m (esp + 8) = some (esp + 12)
  count : ptrs.length = argv.length
  pointers : ∀ i (hi : i < ptrs.length), userWord d m (esp + 12 + 4 * i) = some ptrs[i]
  last : userWord d m (esp + 12 + 4 * ptrs.length) = some 0
  strings : List.Forall₂ (fun arg ptr => Holds d m ptr (arg ++ [0])) argv ptrs
  apart : ((esp, 4 * (ptrs.length + 4)) :: copies argv ptrs).Pairwise Apart
  inside : ∀ r ∈ (esp, 4 * (ptrs.length + 4)) :: copies argv ptrs,
    sz - pgsize ≤ r.1 ∧ r.1 + r.2 ≤ sz

section

variable {d : PageDir} {m m' : Mem} {v esp : Nat} {argv : List (List UInt8)}

theorem length_argBlock (sp : Nat) (ustack : List Nat) :
    (argBlock sp ustack).length = ustack.length + 4 := by
  simp only [argBlock, List.length_append, List.length_cons, List.length_nil]
  omega

theorem argBlock_cons (sp : Nat) (ustack : List Nat) :
    argBlock sp ustack = 0xffffffff :: ustack.length ::
      (sp + wordSize - (ustack.length + 1) * 4) % wordSize :: (ustack ++ [0]) := by
  simp only [argBlock, List.cons_append, List.nil_append]

theorem pushArgs_count {ustack ustack' : List Nat} {sp sp' : Nat} (hcount : ustack.length ≤ maxarg)
    (h : pushArgs d argv sp ustack m = some (some (sp', ustack'), m')) :
    ustack'.length ≤ maxarg := by
  induction argv generalizing sp ustack m with
  | nil =>
    cases h
    exact hcount
  | cons arg argv ih =>
    unfold pushArgs at h
    split at h
    · cases h
    · dsimp only at h
      split at h
      · cases h
      · cases h
      · refine ih ?_ h
        rw [List.length_append, List.length_singleton]
        omega

theorem argBlockAddr_eq {sp : Nat} {ptrs : List Nat} (haligned : sp % 4 = 0)
    (hcount : ptrs.length ≤ maxarg) (hsp : pgsize ≤ sp) (hhigh : sp ≤ kernbase) :
    argBlockAddr sp ptrs = below sp (4 * (ptrs.length + 4)) ∧
      argBlockAddr sp ptrs + 4 * (ptrs.length + 4) = sp := by
  have hlen := length_argBlock sp ptrs
  simp only [argBlockAddr, below, hlen, wordSize, maxarg, pgsize, kernbase] at *
  omega

theorem Holds.block {sp : Nat} {ptrs : List Nat}
    (h : Holds d m esp ((argBlock sp ptrs).flatMap wordBytes)) (hsp : sp ≤ kernbase)
    (hesp : esp + 4 * (ptrs.length + 4) = sp) (hptrs : ∀ ptr ∈ ptrs, ptr < kernbase) :
    userWord d m esp = some 0xffffffff ∧ userWord d m (esp + 4) = some ptrs.length ∧
      userWord d m (esp + 8) = some (esp + 12) ∧
      (∀ i (hi : i < ptrs.length), userWord d m (esp + 12 + 4 * i) = some ptrs[i]) ∧
      userWord d m (esp + 12 + 4 * ptrs.length) = some 0 := by
  have hsmall : kernbase < wordSize := by decide
  have hvector : (sp + wordSize - (ptrs.length + 1) * 4) % wordSize = esp + 12 := by
    simp only [wordSize, kernbase] at hsp ⊢
    omega
  rw [argBlock_cons, hvector] at h
  have hrest : ∀ i word, (ptrs ++ [0])[i]? = some word → word < wordSize →
      userWord d m (esp + 12 + 4 * i) = some word := by
    intro i word hi hword
    have hat := h.nthWord (i := i + 3) hi hword
    have haddr : esp + 4 * (i + 3) = esp + 12 + 4 * i := by omega
    rw [haddr] at hat
    exact hat
  refine ⟨?_, ?_, ?_, fun i hi => hrest i _ ?_ ?_, hrest _ 0 ?_ (by decide)⟩
  · exact h.nthWord (i := 0) rfl (by decide)
  · exact h.nthWord (i := 1) rfl (by omega)
  · exact h.nthWord (i := 2) rfl (by omega)
  · rw [List.getElem?_append_left hi, List.getElem?_eq_getElem hi]
  · exact Nat.lt_trans (hptrs _ (List.getElem_mem hi)) hsmall
  · rw [List.getElem?_append_right le_rfl, Nat.sub_self]
    rfl

theorem pushStack_block (hd : Stack d v) (hbig : ∀ arg ∈ argv, arg.length < kernbase)
    (h : pushStack argv ((v + 1) * pgsize) d m = some (some esp, m')) :
    ∃ ptrs, ArgumentBlock d m' ((v + 1) * pgsize) esp argv ptrs := by
  have hpos := hd.pos
  have htop : (v + 1) * pgsize ≤ kernbase := by
    have hlow := hd.low
    have hupages : upages = 524288 := by decide
    simp only [pgsize, kernbase]
    omega
  have hstart : v * pgsize ≤ (v + 1) * pgsize := Nat.mul_le_mul_right _ (Nat.le_add_right v 1)
  unfold pushStack at h
  split at h
  · cases h
  · cases h
  · rename_i sp ustack m1 hpush
    obtain ⟨⟨ok, m2⟩, hcopy, hresult⟩ := Option.map_eq_some_iff.mp h
    obtain ⟨hok, rfl⟩ := Prod.mk.inj hresult
    obtain ⟨rfl, hesp'⟩ := Option.ite_none_right_eq_some.mp hok
    cases hesp'
    have hcount := pushArgs_count (Nat.zero_le _) hpush
    obtain ⟨ptrs, hustack, hstacked, hstrings, _⟩ :=
      pushArgs_stacked hd hstart le_rfl hbig hpush
    rw [List.nil_append] at hustack
    subst hustack
    obtain ⟨hbase, hle, haligned⟩ := hstacked.bounds hstart
      (by simp only [pgsize]; omega)
    have hlength := hstacked.length
    have hsp : pgsize ≤ sp := by
      simp only [pgsize] at hbase ⊢
      omega
    obtain ⟨haddr, hesp⟩ := argBlockAddr_eq haligned hcount hsp (Nat.le_trans hle htop)
    have hbytes : ((argBlock sp ustack).flatMap wordBytes).length = 4 * (ustack.length + 4) := by
      rw [length_wordBytes, length_argBlock]
    have hshort : 4 * (ustack.length + 4) ≤ kernbase := by
      simp only [maxarg, kernbase] at hcount ⊢
      omega
    rw [haddr, ← hbytes] at hcopy
    obtain ⟨hin, _⟩ := push_inside hd hbase hle (by omega) (by omega) hcopy
    obtain ⟨hholds, hkept⟩ := push_bytes hd hbase hle (by omega) (by omega) hcopy
    rw [hbytes, ← haddr] at hin hholds
    have hptrs : ∀ ptr ∈ ustack, ptr < kernbase := by
      intro ptr hptr
      exact Nat.lt_of_lt_of_le (hstacked.pointer_lt hptr) htop
    obtain ⟨hpc, hargc, hvector, hpointers, hlast⟩ :=
      hholds.block (Nat.le_trans hle htop) hesp hptrs
    have hbottom : (v + 1) * pgsize - pgsize = v * pgsize := by
      rw [Nat.add_mul, Nat.one_mul, Nat.add_sub_cancel]
    refine ⟨ustack, by omega, hpc, by rw [hargc, hlength], hvector, hlength, hpointers, hlast,
      ?_, ?_, fun r hr => ?_⟩
    · -- the words lie below `sp`, the strings above it
      exact hstacked.keeps hstrings hkept
    · refine List.pairwise_cons.mpr ⟨fun r hr => Or.inl ?_, hstacked.apart⟩
      rw [hesp]
      exact (hstacked.inside hr).2.1
    · rw [hbottom]
      rcases List.mem_cons.mp hr with rfl | hcopy
      · exact ⟨hin, by omega⟩
      · obtain ⟨hlo, _, hhi⟩ := hstacked.inside hcopy
        exact ⟨hlo, hhi⟩

end

section Commit

variable {free : Nat → FreeLists} {d d' : PageDir} {m m' : Mem} {s s' : Space} {esp : Nat}
  {argv : List (List UInt8)}

theorem stack_clearpteu {v : Nat} (hpos : 0 < v) (hlow : v < upages)
    (h : clearpteu d ((v + 1) * pgsize - 2 * pgsize) = some d') (hd' : d'.Wf) : Stack d' v where
  pos := hpos
  low := hlow
  guard := by
    intro q hq
    have hpage : ((v + 1) * pgsize - 2 * pgsize) / pgsize = v - 1 := by
      simp only [pgsize]
      omega
    obtain ⟨pte, hpte, huser, _⟩ := uva2ka_present hq
    unfold clearpteu at h
    rw [hpage] at h
    split at h
    · cases h
    · rename_i old hlookup
      cases h
      obtain ⟨hentry, _⟩ := present_eq_some.mp hpte
      rw [lookup_setPte_self hlookup] at hentry
      cases hentry
      cases huser
  kernel := by
    intro w q hw hq
    obtain ⟨pte, hpte, _⟩ := uva2ka_present hq
    have hbelow := wf_present hd' hpte
    omega

theorem setupStack_block (hs : FromLists free s.pgdir) (hbig : ∀ arg ∈ argv, arg.length < kernbase)
    (h : setupStack free argv s = some (some esp, s')) :
    FromLists free s'.pgdir ∧ ∃ ptrs, ArgumentBlock s'.pgdir s'.mem s'.sz esp argv ptrs := by
  unfold setupStack at h
  dsimp only at h
  split at h
  · cases h
  · rename_i sz d m halloc
    have hd := FromLists.allocuvm (s := { s with sz := pages s.sz * pgsize }) hs halloc
    split at h
    · cases h
    · rename_i hsz
      obtain ⟨rfl, hlow⟩ := allocuvm_stack halloc hsz
      split at h
      · cases h
      · rename_i d1 hclear
        have hd1 := hd.clearpteu hclear
        split at h
        · cases h
        · rename_i result m1 hpush
          cases h
          have hstack := stack_clearpteu (Nat.succ_pos _) hlow hclear hd1.wf
          exact ⟨hd1, pushStack_block hstack hbig hpush⟩

theorem loadImage_block {lists : ExecFree} {file : List UInt8} {image : Loaded}
    (hbig : ∀ arg ∈ argv, arg.length < kernbase)
    (h : loadImage lists file argv m = some (some image, m')) :
    m' = image.space.mem ∧ FromLists lists.user image.space.pgdir ∧
      ∃ ptrs, ArgumentBlock image.space.pgdir image.space.mem image.space.sz image.esp argv
        ptrs := by
  unfold loadImage at h
  dsimp only at h
  split at h
  · cases h
  · split at h
    · cases h
    · split at h
      · cases h
      · rename_i d0 m0 hsetup
        have hfresh : FromLists lists.user d0 := FromLists.fresh (fresh_setupkvm hsetup)
        split at h
        · cases h
        · obtain ⟨m1, _, hresult⟩ := Option.map_eq_some_iff.mp h
          cases hresult
        · rename_i s1 hload
          have hs1 := hfresh.loadSegments hload
          split at h
          · cases h
          · obtain ⟨m1, _, hresult⟩ := Option.map_eq_some_iff.mp h
            cases hresult
          · rename_i esp1 s2 hstack
            cases h
            obtain ⟨hs2, hblock⟩ := setupStack_block hs1 hbig hstack
            exact ⟨rfl, hs2, hblock⟩

theorem ArgumentBlock.congr {sz : Nat} {ptrs : List Nat} (h : ArgumentBlock d m sz esp argv ptrs)
    (hsame : ∀ va, userByte d m' va = userByte d m va) : ArgumentBlock d m' sz esp argv ptrs := by
  have hword : ∀ va, userWord d m' va = userWord d m va := by
    intro va
    simp only [userWord, hsame]
  exact ⟨h.aligned, by rw [hword]; exact h.returnPc, by rw [hword]; exact h.argc,
    by rw [hword]; exact h.vector, h.count, fun i hi => by rw [hword]; exact h.pointers i hi,
    by rw [hword]; exact h.last,
    h.strings.imp fun _ _ hholds => hholds.congr fun x _ _ => hsame x, h.apart, h.inside⟩

end Commit

/-- When `exec` returns 0, the new program finds its arguments at the stack
pointer, all of them in the stack page. -/
theorem exec_argument_block {free : ExecFree} {path : List UInt8} {file : Option (List UInt8)}
    {argv : List (List UInt8)} {proc proc' : Caller} {m m' : Mem}
    (hfree : ∀ v, ∀ q ∈ (free.user v).page, ¬ Uses proc.pgdir q)
    (hbig : ∀ arg ∈ argv, arg.length < kernbase)
    (h : exec free path file argv proc m = some (proc', m', true)) :
    ∃ ptrs, ArgumentBlock proc'.pgdir m' proc'.sz proc'.esp argv ptrs := by
  unfold exec at h
  split at h
  · cases h
  · split at h
    · cases h
    · cases h
    · rename_i image m1 hload
      obtain ⟨m2, hold, hresult⟩ := Option.map_eq_some_iff.mp h
      cases hresult
      obtain ⟨rfl, hfrom, ptrs, hblock⟩ := loadImage_block hbig hload
      refine ⟨ptrs, hblock.congr fun va => ?_⟩
      -- the old image does not use the frames of the new one
      unfold userByte
      cases hpte : image.space.pgdir.present (va / pgsize) with
      | none => rfl
      | some pte =>
        have hgiven := hfrom.maps _ _ (maps_eq_some.mpr ⟨pte, hpte, rfl⟩)
        rw [Option.map_some, Option.map_some, freevm_frame hold
          (hfree _ _ (List.mem_of_head? hgiven))]

def emptyProgram : List UInt8 :=
  [0x7f, 0x45, 0x4c, 0x46] ++ List.replicate 48 0

def plenty : ExecFree :=
  ⟨List.range' 5000 65, ample⟩

def onePageCaller : Caller :=
  ⟨onePage.pgdir, onePage.sz, [], 0, 0⟩

theorem onePageCaller_uses {q : Nat} (h : Uses onePageCaller.pgdir q) :
    q = 2001 ∨ q = 2000 ∨ q = 2010 := by
  rcases h with hown | ⟨u, hu⟩
  · have hitems : onePageCaller.pgdir.tables ++ [onePageCaller.pgdir.page] = [2001, 2000] := by
      decide +kernel
    rw [← listed_tables, hitems] at hown
    rcases List.mem_pair.mp (List.count_pos_iff.mp hown) with rfl | rfl
    · exact Or.inl rfl
    · exact Or.inr (Or.inl rfl)
  · exact Or.inr (Or.inr (onePage_maps hu).2)

theorem exec_argument_block_two_strings : ∃ proc' m' ptrs,
      exec plenty [] (some emptyProgram) [[97, 98], [99]] onePageCaller onePage.mem =
        some (proc', m', true) ∧
      proc'.sz = 8192 ∧ proc'.esp = 8160 ∧
      ArgumentBlock proc'.pgdir m' proc'.sz proc'.esp [[97, 98], [99]] ptrs := by
  have hfacts : (exec plenty [] (some emptyProgram) [[97, 98], [99]] onePageCaller onePage.mem).map
      (fun result => (result.1.sz, result.1.esp, result.2.2)) = some (8192, 8160, true) := by
    decide +kernel
  obtain ⟨⟨proc', m', ok⟩, hcall, hfacts⟩ := Option.map_eq_some_iff.mp hfacts
  simp only [Prod.mk.injEq] at hfacts
  obtain ⟨hsz, hesp, rfl⟩ := hfacts
  have hfree : ∀ v, ∀ q ∈ (plenty.user v).page, ¬ Uses onePageCaller.pgdir q := by
    intro v q hq huses
    have hlist : q = 3000 + v := List.mem_singleton.mp hq
    have hsmall := onePageCaller_uses huses
    omega
  have hbig : ∀ arg ∈ [[97, 98], [99]], (arg : List UInt8).length < kernbase := by decide
  obtain ⟨ptrs, hblock⟩ := exec_argument_block hfree hbig hcall
  exact ⟨proc', m', ptrs, hcall, hsz, hesp, hblock⟩

end Xv6.Exec
