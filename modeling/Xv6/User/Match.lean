import Mathlib.Computability.Language

/-! The regular expressions of `grep`. A string is the list of its bytes in
front of the NUL. -/
namespace Xv6.Grep
open Computability

abbrev CString := List UInt8

def caret : UInt8 := 94

def dollar : UInt8 := 36

def star : UInt8 := 42

def dot : UInt8 := 46

/-- The loop of `matchstar`; `here` is `matchhere` of the rest of the pattern. -/
def matchstar (here : CString → Bool) (c : UInt8) : CString → Bool
  | [] => here []
  | t :: text => here (t :: text) || ((t = c || c = dot) && matchstar here c text)

/-- The last test of `matchhere`; `here` is `matchhere(re+1, ·)`. -/
def matchone (here : CString → Bool) (c : UInt8) : CString → Bool
  | [] => false
  | t :: text => (c = dot || c = t) && here text

def matchhere : CString → CString → Bool
  | [] => fun _ => true
  | [c] => fun text => if c = dollar then text.isEmpty else matchone (fun _ => true) c text
  | c :: d :: re => fun text =>
    if d = star then matchstar (matchhere re) c text else matchone (matchhere (d :: re)) c text

def matchFrom (re : CString) : CString → Bool
  | [] => matchhere re []
  | t :: text => matchhere re (t :: text) || matchFrom re text

def matchText (re text : CString) : Bool :=
  if re.head? = some caret then matchhere re.tail text else matchFrom re text

inductive Item where
  | one (c : UInt8)
  | star (c : UInt8)

/-- The items of a pattern, and whether it ends in a `$` of its own. -/
def items : CString → List Item × Bool
  | [] => ([], false)
  | [c] => if c = dollar then ([], true) else ([.one c], false)
  | c :: d :: re =>
    if d = star then (.star c :: (items re).1, (items re).2)
    else (.one c :: (items (d :: re)).1, (items (d :: re)).2)

def single (c : UInt8) : Language UInt8 := {word | ∃ t, (c = dot ∨ t = c) ∧ word = [t]}

def Item.lang : Item → Language UInt8
  | .one c => single c
  | .star c => (single c)∗

def lang (re : CString) : Language UInt8 := ((items re).1.map Item.lang).prod

/-- The text begins with a word of the pattern, and ends there if the pattern
says so. -/
def Accepts (re text : CString) : Prop :=
  ∃ word after, text = word ++ after ∧ word ∈ lang re ∧ ((items re).2 = true → after = [])

theorem matchstar_iff (here : CString → Bool) (c : UInt8) (text : CString) :
    matchstar here c text = true ↔
      ∃ word after, text = word ++ after ∧ word ∈ (single c)∗ ∧ here after = true := by
  induction text with
  | nil =>
    constructor
    · intro hhere
      exact ⟨[], [], rfl, Language.nil_mem_kstar _, hhere⟩
    · rintro ⟨word, after, heq, -, hhere⟩
      obtain ⟨-, rfl⟩ := List.append_eq_nil_iff.mp heq.symm
      exact hhere
  | cons t text ih =>
    rw [matchstar, Bool.or_eq_true, Bool.and_eq_true, ih, Bool.or_eq_true, decide_eq_true_eq,
      decide_eq_true_eq]
    constructor
    · rintro (hhere | ⟨ht, word, after, rfl, hword, hhere⟩)
      · exact ⟨[], _, rfl, Language.nil_mem_kstar _, hhere⟩
      · refine ⟨t :: word, after, rfl, ?_, hhere⟩
        obtain ⟨parts, rfl, hparts⟩ := Language.mem_kstar.mp hword
        refine Language.mem_kstar.mpr ⟨[t] :: parts, rfl, ?_⟩
        intro part hpart
        rcases List.mem_cons.mp hpart with rfl | hpart
        · exact ⟨t, ht.symm, rfl⟩
        · exact hparts part hpart
    · rintro ⟨word, after, heq, hword, hhere⟩
      obtain ⟨parts, rfl, hparts⟩ := Language.mem_kstar.mp hword
      cases parts with
      | nil => exact Or.inl (heq ▸ hhere)
      | cons part parts =>
        obtain ⟨x, hx, rfl⟩ := hparts part List.mem_cons_self
        obtain ⟨rfl, rfl⟩ := List.cons.inj heq
        refine Or.inr ⟨hx.symm, parts.flatten, after, rfl, ?_, hhere⟩
        exact Language.mem_kstar.mpr ⟨parts, rfl, fun part hpart =>
          hparts part (List.mem_cons_of_mem _ hpart)⟩

theorem matchone_iff (here : CString → Bool) (c : UInt8) (text : CString) :
    matchone here c text = true ↔
      ∃ word after, text = word ++ after ∧ word ∈ single c ∧ here after = true := by
  constructor
  · intro hmatch
    cases text with
    | nil => cases hmatch
    | cons t text =>
      simp only [matchone, Bool.and_eq_true, Bool.or_eq_true, decide_eq_true_eq] at hmatch
      exact ⟨[t], text, rfl, ⟨t, hmatch.1.imp_right Eq.symm, rfl⟩, hmatch.2⟩
  · rintro ⟨word, after, rfl, ⟨t, ht, rfl⟩, hhere⟩
    simpa [matchone, hhere] using ht.imp_right Eq.symm

theorem accepts_cons {re rest text : CString} {item : Item}
    (hitems : items re = (item :: (items rest).1, (items rest).2)) :
    Accepts re text ↔
      ∃ word after, text = word ++ after ∧ word ∈ item.lang ∧ Accepts rest after := by
  have hlang : lang re = item.lang * lang rest := by simp [lang, hitems]
  simp only [Accepts, hitems, hlang]
  constructor
  · rintro ⟨word, after, rfl, hword, hend⟩
    obtain ⟨first, hfirst, second, hsecond, rfl⟩ := Language.mem_mul.mp hword
    exact ⟨first, second ++ after, by simp, hfirst, second, after, rfl, hsecond, hend⟩
  · rintro ⟨first, _, rfl, hfirst, second, after, rfl, hsecond, hend⟩
    exact ⟨first ++ second, after, by simp, Language.append_mem_mul hfirst hsecond, hend⟩

theorem accepts_nil (text : CString) : Accepts [] text :=
  ⟨[], text, rfl, by simp [lang, items], by simp [items]⟩

theorem matchhere_iff (re text : CString) : matchhere re text = true ↔ Accepts re text := by
  induction re using matchhere.induct generalizing text with
  | case1 => simp [matchhere, accepts_nil]
  | case2 c =>
    by_cases hc : c = dollar
    · subst hc
      have hitems : items [dollar] = ([], true) := rfl
      simp [matchhere, Accepts, lang, hitems]
    · have hitems : items [c] = (.one c :: (items []).1, (items []).2) := by simp [items, hc]
      simp [matchhere, hc, matchone_iff, accepts_cons hitems, accepts_nil, Item.lang]
  | case3 c d re ihstar ihone =>
    by_cases hd : d = star
    · have hitems : items (c :: d :: re) = (.star c :: (items re).1, (items re).2) := by
        simp [items, hd]
      simp only [matchhere, if_pos hd, matchstar_iff, accepts_cons hitems, ihstar, Item.lang]
    · have hitems : items (c :: d :: re) =
          (.one c :: (items (d :: re)).1, (items (d :: re)).2) := by
        simp [items, hd]
      simp only [matchhere, if_neg hd, matchone_iff, accepts_cons hitems, ihone, Item.lang]

theorem matchFrom_iff (re text : CString) :
    matchFrom re text = true ↔ ∃ before rest, text = before ++ rest ∧ Accepts re rest := by
  induction text with
  | nil =>
    rw [matchFrom, matchhere_iff]
    constructor
    · intro haccepts
      exact ⟨[], [], rfl, haccepts⟩
    · rintro ⟨before, rest, heq, haccepts⟩
      obtain ⟨-, rfl⟩ := List.append_eq_nil_iff.mp heq.symm
      exact haccepts
  | cons t text ih =>
    rw [matchFrom, Bool.or_eq_true, matchhere_iff, ih]
    constructor
    · rintro (haccepts | ⟨before, rest, rfl, haccepts⟩)
      · exact ⟨[], _, rfl, haccepts⟩
      · exact ⟨t :: before, rest, rfl, haccepts⟩
    · rintro ⟨before, rest, heq, haccepts⟩
      cases before with
      | nil => exact Or.inl (heq ▸ haccepts)
      | cons b before =>
        obtain ⟨-, rfl⟩ := List.cons.inj heq
        exact Or.inr ⟨before, rest, rfl, haccepts⟩

def unanchored (re : CString) : CString := if re.head? = some caret then re.tail else re

/-- `match` finds a part of the text in the language of the pattern: at the
beginning after a `^`, and up to the end in front of a `$`. -/
theorem match_iff_substring (re text : CString) :
    matchText re text = true ↔
      ∃ before word after, text = before ++ word ++ after ∧ word ∈ lang (unanchored re) ∧
        (re.head? = some caret → before = []) ∧
        ((items (unanchored re)).2 = true → after = []) := by
  by_cases hcaret : re.head? = some caret
  · simp only [matchText, unanchored, if_pos hcaret, matchhere_iff, Accepts]
    constructor
    · rintro ⟨word, after, rfl, hword, hend⟩
      exact ⟨[], word, after, rfl, hword, fun _ => rfl, hend⟩
    · rintro ⟨before, word, after, rfl, hword, hbefore, hend⟩
      obtain rfl := hbefore hcaret
      exact ⟨word, after, rfl, hword, hend⟩
  · simp only [matchText, unanchored, if_neg hcaret, matchFrom_iff, Accepts]
    constructor
    · rintro ⟨before, _, rfl, word, after, rfl, hword, hend⟩
      exact ⟨before, word, after, by simp, hword, fun heq => absurd heq hcaret, hend⟩
    · rintro ⟨before, word, after, rfl, hword, -, hend⟩
      exact ⟨before, word ++ after, by simp, word, after, rfl, hword, hend⟩

end Xv6.Grep
