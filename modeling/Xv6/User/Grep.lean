import Xv6.User.Match

/-! `grep` over the results of `read`. A buffer without a newline is thrown
away, so that a line that comes in two pieces can lose its beginning. -/
namespace Xv6.Grep

def newline : UInt8 := 10

def bufSize : Nat := 1024

def strchr (c : UInt8) : List UInt8 → Option Nat
  | [] => none
  | b :: s => if b = 0 then none else if b = c then some 0 else (strchr c s).map (· + 1)

/-- The inner loop of `grep` from `p`: what it writes, and `p` at its end. Every
turn moves `p` on. -/
def lineLoop (pattern : CString) : Nat → List UInt8 → List UInt8 × List UInt8
  | 0, p => ([], p)
  | fuel + 1, p =>
    match strchr newline p with
    | none => ([], p)
    | some q =>
      let rest := lineLoop pattern fuel (p.drop (q + 1))
      ((if matchText pattern (p.take q) then p.take (q + 1) else []) ++ rest.1, rest.2)

/-- A turn of the outer loop, with the first `m` bytes of the buffer and the
result of `read`: what it writes, and the bytes it keeps. -/
def turn (pattern : CString) (kept got : List UInt8) : List UInt8 × List UInt8 :=
  let buf := kept ++ got
  let lines := lineLoop pattern buf.length buf
  (lines.1, if lines.2.length = buf.length then [] else lines.2)

def grepLoop (pattern : CString) : List UInt8 → List (List UInt8) → List UInt8
  | _, [] => []
  | kept, got :: reads =>
    (turn pattern kept got).1 ++ grepLoop pattern (turn pattern kept got).2 reads

def grep (pattern : CString) (reads : List (List UInt8)) : List UInt8 := grepLoop pattern [] reads

/-- The calls of `read` return some bytes, and no more than `sizeof(buf)-m-1`. -/
def Fits : List UInt8 → List (List UInt8) → Prop
  | _, [] => True
  | kept, got :: reads =>
    got ≠ [] ∧ got.length ≤ bufSize - kept.length - 1 ∧ Fits (turn [] kept got).2 reads

instance decidableFits : (kept : List UInt8) → (reads : List (List UInt8)) →
    Decidable (Fits kept reads)
  | _, [] => inferInstanceAs (Decidable True)
  | kept, got :: reads =>
    have := decidableFits (turn [] kept got).2 reads
    inferInstanceAs (Decidable (_ ∧ _ ∧ _))

/-- The lines of the stream that match. What follows the last newline is no
line. -/
def selected (pattern : CString) (stream : List UInt8) : List UInt8 :=
  ((stream.splitOnP (· = newline)).dropLast.filter (matchText pattern)).flatMap (· ++ [newline])

variable {pattern : CString} {p s kept got : List UInt8} {reads : List (List UInt8)}

theorem strchr_none (hnul : 0 ∉ p) (h : strchr newline p = none) : newline ∉ p := by
  induction p with
  | nil => simp
  | cons b p ih =>
    rw [List.mem_cons, not_or] at hnul
    simp only [strchr, if_neg (Ne.symm hnul.1)] at h
    split at h
    · cases h
    · rename_i hb
      rw [List.mem_cons, not_or]
      exact ⟨Ne.symm hb, ih hnul.2 (Option.map_eq_none_iff.mp h)⟩

theorem strchr_some {q : Nat} (h : strchr newline p = some q) :
    ∃ line rest, p = line ++ newline :: rest ∧ line.length = q ∧ newline ∉ line := by
  induction p generalizing q with
  | nil => cases h
  | cons b p ih =>
    simp only [strchr] at h
    split at h
    · cases h
    split at h
    · rename_i hb
      cases h
      exact ⟨[], p, by simp [hb], rfl, List.not_mem_nil⟩
    · rename_i hb
      obtain ⟨q', hq', rfl⟩ := Option.map_eq_some_iff.mp h
      obtain ⟨line, rest, rfl, rfl, hline⟩ := ih hq'
      exact ⟨b :: line, rest, rfl, rfl, by simp [Ne.symm hb, hline]⟩

theorem newline_free (hs : newline ∉ s) : ∀ b ∈ s, decide (b = newline) = false := by
  intro b hb
  apply decide_eq_false
  rintro rfl
  exact hs hb

theorem selected_nil (hs : newline ∉ s) : selected pattern s = [] := by
  simp [selected, List.splitOnP_eq_singleton (newline_free hs)]

theorem selected_line {line : List UInt8} (hline : newline ∉ line) (s : List UInt8) :
    selected pattern (line ++ newline :: s) =
      (if matchText pattern line then line ++ [newline] else []) ++ selected pattern s := by
  rw [selected, List.splitOnP_append_cons_of_forall_mem (newline_free hline) newline
    (decide_eq_true rfl), List.dropLast_cons_of_ne_nil (List.splitOnP_ne_nil _ _),
    List.filter_cons]
  split <;> simp [selected]

/-- The inner loop writes the lines of the buffer that match, and comes to
what follows the last newline. -/
theorem lineLoop_selected (pattern : CString) {fuel : Nat} (hfuel : p.length ≤ fuel) (hnul : 0 ∉ p)
    : newline ∉ (lineLoop pattern fuel p).2 ∧ 0 ∉ (lineLoop pattern fuel p).2 ∧
      (newline ∉ p → lineLoop pattern fuel p = ([], p)) ∧
      (newline ∈ p → (lineLoop pattern fuel p).2.length < p.length) ∧
      ∀ s, selected pattern (p ++ s) =
        (lineLoop pattern fuel p).1 ++ selected pattern ((lineLoop pattern fuel p).2 ++ s) := by
  induction fuel generalizing p with
  | zero =>
    obtain rfl := List.length_eq_zero_iff.mp (Nat.le_zero.mp hfuel)
    simp [lineLoop]
  | succ fuel ih =>
    rw [lineLoop]
    cases hq : strchr newline p with
    | none =>
      have hp := strchr_none hnul hq
      simp [hp, hnul]
    | some q =>
      obtain ⟨line, rest, rfl, rfl, hline⟩ := strchr_some hq
      have hrest : rest.length ≤ fuel := by
        rw [List.length_append, List.length_cons] at hfuel
        omega
      obtain ⟨hnl, hnul', hnone, hsome, hsel⟩ := ih hrest fun hmem => hnul (by simp [hmem])
      have hle : (lineLoop pattern fuel rest).2.length ≤ rest.length := by
        by_cases hmem : newline ∈ rest
        · exact (hsome hmem).le
        · rw [hnone hmem]
      simp only [List.drop_length_add_append, List.drop_one, List.tail_cons]
      refine ⟨hnl, hnul', fun hnot => absurd (by simp) hnot, fun _ => ?_, fun s => ?_⟩
      · rw [List.length_append, List.length_cons]
        omega
      · rw [List.append_assoc, List.cons_append, selected_line hline, hsel s]
        simp [List.take_length_add_append]

theorem turn_selected (pattern : CString) (hkept : newline ∉ kept) (hnul : 0 ∉ kept ++ got) :
    (newline ∉ got → turn pattern kept got = ([], [])) ∧
      (newline ∈ got → newline ∉ (turn pattern kept got).2 ∧ 0 ∉ (turn pattern kept got).2 ∧
        ∀ s, selected pattern (kept ++ (got ++ s)) =
          (turn pattern kept got).1 ++ selected pattern ((turn pattern kept got).2 ++ s)) := by
  obtain ⟨hnl, hnul', hnone, hsome, hsel⟩ :=
    lineLoop_selected pattern (p := kept ++ got) le_rfl hnul
  have hmem : newline ∈ kept ++ got ↔ newline ∈ got := by simp [hkept]
  constructor
  · intro hgot
    simp only [turn, hnone (mt hmem.mp hgot), if_true]
  · intro hgot
    have hlt := (hsome (hmem.mpr hgot)).ne
    simp only [turn, if_neg hlt]
    exact ⟨hnl, hnul', fun s => by rw [← List.append_assoc, hsel]⟩

/-- No read without a newline is followed by one with a newline. -/
def Whole (reads : List (List UInt8)) : Prop :=
  reads.Pairwise fun first later => newline ∈ later → newline ∈ first

theorem grepLoop_selected (hkept : newline ∉ kept) (hnul : 0 ∉ kept ++ reads.flatten)
    (hwhole : Whole reads) :
    grepLoop pattern kept reads = selected pattern (kept ++ reads.flatten) := by
  induction reads generalizing kept with
  | nil => simp [grepLoop, selected_nil hkept]
  | cons got reads ih =>
    obtain ⟨hfirst, hwhole'⟩ := List.pairwise_cons.mp hwhole
    simp only [List.flatten_cons, List.mem_append, not_or] at hnul
    obtain ⟨hnone, hsome⟩ := turn_selected pattern hkept
      (by simp [hnul.1, hnul.2.1] : 0 ∉ kept ++ got)
    rw [grepLoop, List.flatten_cons]
    by_cases hgot : newline ∈ got
    · obtain ⟨hnl, hnul', hsel⟩ := hsome hgot
      rw [hsel, ih hnl (by simp [hnul', hnul.2.2]) hwhole']
    · have hreads : newline ∉ reads.flatten := by
        intro hmem
        obtain ⟨later, hlater, hin⟩ := List.mem_flatten.mp hmem
        exact hgot (hfirst later hlater hin)
      rw [hnone hgot, ih List.not_mem_nil hnul.2.2 hwhole', List.nil_append, List.nil_append,
        selected_nil hreads, selected_nil (by simp [hkept, hgot, hreads])]

/-! The empty pattern selects every line. -/

theorem matchText_nil (text : CString) : matchText [] text = true := by
  cases text <;> rfl

theorem selected_all (hs : newline ∉ kept) :
    (selected [] (kept ++ s)).length =
      (selected [] s).length + if newline ∈ s then kept.length else 0 := by
  by_cases hmem : newline ∈ s
  · obtain ⟨line, rest, rfl, hline⟩ := List.eq_append_cons_of_mem hmem
    have hboth : newline ∉ kept ++ line := by simp [hs, hline]
    rw [← List.append_assoc, selected_line hboth, selected_line hline]
    simp [matchText_nil]
    omega
  · rw [selected_nil hmem, selected_nil (by simp [hs, hmem]), if_neg hmem]
    rfl

theorem grepLoop_length (hkept : newline ∉ kept) (hnul : 0 ∉ kept ++ reads.flatten) :
    (grepLoop [] kept reads).length ≤ (selected [] (kept ++ reads.flatten)).length := by
  induction reads generalizing kept with
  | nil => simp [grepLoop]
  | cons got reads ih =>
    simp only [List.flatten_cons, List.mem_append, not_or] at hnul
    obtain ⟨hnone, hsome⟩ := turn_selected [] hkept
      (by simp [hnul.1, hnul.2.1] : 0 ∉ kept ++ got)
    rw [grepLoop, List.flatten_cons]
    by_cases hgot : newline ∈ got
    · obtain ⟨hnl, hnul', hsel⟩ := hsome hgot
      rw [hsel, List.length_append, List.length_append]
      have := ih hnl (by simp [hnul', hnul.2.2])
      omega
    · rw [hnone hgot, ← List.append_assoc, selected_all (by simp [hkept, hgot])]
      exact (ih List.not_mem_nil hnul.2.2).trans (Nat.le_add_right ..)

theorem whole_of_grepLoop (hkept : newline ∉ kept) (hnul : 0 ∉ kept ++ reads.flatten)
    (hsome : [] ∉ reads)
    (h : grepLoop [] kept reads = selected [] (kept ++ reads.flatten)) : Whole reads := by
  induction reads generalizing kept with
  | nil => exact List.Pairwise.nil
  | cons got reads ih =>
    simp only [List.flatten_cons, List.mem_append, not_or] at hnul
    obtain ⟨hnone, hsel⟩ := turn_selected [] hkept
      (by simp [hnul.1, hnul.2.1] : 0 ∉ kept ++ got)
    rw [grepLoop, List.flatten_cons] at h
    rw [List.mem_cons, not_or] at hsome
    by_cases hgot : newline ∈ got
    · obtain ⟨hnl, hnul', hsel⟩ := hsel hgot
      rw [hsel] at h
      exact List.pairwise_cons.mpr ⟨fun _ _ _ => hgot,
        ih hnl (by simp [hnul', hnul.2.2]) hsome.2 (List.append_cancel_left h)⟩
    · -- the bytes that are thrown away are missing from a line
      have hreads : newline ∉ reads.flatten := by
        intro hmem
        have hlength := congrArg List.length h
        have hle : _ ≤ (selected [] ([] ++ reads.flatten)).length :=
          grepLoop_length List.not_mem_nil hnul.2.2
        have hpos : 0 < got.length := List.length_pos_of_ne_nil (Ne.symm hsome.1)
        rw [hnone hgot, ← List.append_assoc, selected_all (by simp [hkept, hgot]),
          if_pos hmem] at hlength
        simp only [List.nil_append, List.length_append] at hlength hle
        omega
      have hfree : ∀ later ∈ got :: reads, newline ∉ later := by
        intro later hlater hin
        rcases List.mem_cons.mp hlater with rfl | hlater
        · exact hgot hin
        · exact hreads (List.mem_flatten.mpr ⟨later, hlater, hin⟩)
      exact List.pairwise_of_forall_mem_list fun _ _ later hlater hin =>
        absurd hin (hfree later hlater)

theorem not_mem_of_fits (h : Fits kept reads) : [] ∉ reads := by
  induction reads generalizing kept with
  | nil => exact List.not_mem_nil
  | cons got reads ih =>
    rw [List.mem_cons, not_or]
    exact ⟨Ne.symm h.1, ih h.2.2⟩

/-- `grep` is right for a way to read the stream, whatever the pattern, exactly
when every read that is followed by the rest of a line has a newline in it. -/
theorem grep_selects_iff (reads : List (List UInt8)) (hnul : 0 ∉ reads.flatten)
    (hfits : Fits [] reads) :
    (∀ pattern, grep pattern reads = selected pattern reads.flatten) ↔ Whole reads := by
  constructor
  · intro h
    exact whole_of_grepLoop List.not_mem_nil hnul (not_mem_of_fits hfits) (h [])
  · intro hwhole pattern
    exact grepLoop_selected List.not_mem_nil hnul hwhole

def twoReads : List (List UInt8) := [[97, 98, 10, 99], [100, 10, 101]]

theorem grep_selects_twoReads : 0 ∉ twoReads.flatten ∧ Fits [] twoReads ∧ Whole twoReads ∧
      ∀ pattern, grep pattern twoReads = selected pattern twoReads.flatten := by
  have hwhole : Whole twoReads := by simp [Whole, twoReads, newline]
  have hnul : 0 ∉ twoReads.flatten := by decide
  have hfits : Fits [] twoReads := by decide
  exact ⟨hnul, hfits, hwhole, (grep_selects_iff twoReads hnul hfits).mpr hwhole⟩

/-- The line `abc` in two reads is not printed for the pattern `b`, and in one
read it is. -/
theorem grep_loses_beginning : Fits [] [[97, 98], [99, 10]] ∧ Fits [] [[97, 98, 99, 10]] ∧
      grep [98] [[97, 98], [99, 10]] = [] ∧ grep [98] [[97, 98, 99, 10]] = [97, 98, 99, 10] ∧
      selected [98] [97, 98, 99, 10] = [97, 98, 99, 10] := by
  decide

end Xv6.Grep
