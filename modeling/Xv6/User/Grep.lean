import Mathlib.Computability.Language
import Xv6.Param

/-! # The matcher of grep

    A pattern denotes a language: a concatenation of items, each a character or
    a repeated character, between two optional anchors. The matcher backtracks
    over the text, and accepts exactly the texts with a part in that language.

    A C string is the list of its bytes before the NUL.
-/

namespace Xv6.Grep

open Computability

/-- `'^'` -/
abbrev CARET : Byte := 0x5e
/-- `'$'` -/
abbrev DOLLAR : Byte := 0x24
/-- `'.'` -/
abbrev DOT : Byte := 0x2e
/-- `'*'` -/
abbrev STAR : Byte := 0x2a

/-! ## The program -/

/-- Search for `c*re` at beginning of text; `here` is `matchhere` of `re`. -/
def matchstar (c : Byte) (here : List Byte → Bool) : (text : List Byte) → Bool
  | [] => here []
  | t :: text =>
    if here (t :: text) then true
    else if t = c ∨ c = DOT then matchstar c here text
    else false

/-- Search for `re` at beginning of text. -/
def matchhere : (re text : List Byte) → Bool
  | [], _ => true
  | [c], text =>
    if c = DOLLAR then text.isEmpty
    else match text with
      | [] => false
      | t :: text => if c = DOT ∨ c = t then matchhere [] text else false
  | c :: d :: re, text =>
    if d = STAR then matchstar c (matchhere re) text
    else match text with
      | [] => false
      | t :: text => if c = DOT ∨ c = t then matchhere (d :: re) text else false

/-- The loop of `match` over the positions of the text, the end included. -/
def match_loop (re : List Byte) : (text : List Byte) → Bool
  | [] => matchhere re []
  | t :: text => if matchhere re (t :: text) then true else match_loop re text

def «match» (re text : List Byte) : Bool :=
  match re with
  | [] => match_loop [] text
  | c :: re => if c = CARET then matchhere re text else match_loop (c :: re) text

/-! ## The meaning of a pattern -/

inductive Item where
  /-- One character. -/
  | one (c : Byte)
  /-- Any number of them. -/
  | star (c : Byte)
deriving DecidableEq

/-- The character `c` of a pattern, where `'.'` stands for any one. -/
def charLang (c : Byte) : Language Byte := {w | ∃ t, w = [t] ∧ (c = DOT ∨ c = t)}

def Item.lang : Item → Language Byte
  | .one c => charLang c
  | .star c => (charLang c)∗

/-- A pattern without its `'^'`, read from left to right: its items, and whether
    a `'$'` is left at the end. -/
def readItems : (re : List Byte) → List Item × Bool
  | [] => ([], false)
  | [c] => if c = DOLLAR then ([], true) else ([.one c], false)
  | c :: d :: re =>
    if d = STAR then (.star c :: (readItems re).1, (readItems re).2)
    else (.one c :: (readItems (d :: re)).1, (readItems (d :: re)).2)

structure Pattern where
  first : Bool
  items : List Item
  last : Bool

def readPattern (re : List Byte) : Pattern :=
  match re with
  | [] => ⟨false, [], false⟩
  | c :: re =>
    if c = CARET then ⟨true, (readItems re).1, (readItems re).2⟩
    else ⟨false, (readItems (c :: re)).1, (readItems (c :: re)).2⟩

/-- The concatenations of matches of the items. -/
def itemsLang (items : List Item) : Language Byte := (items.map Item.lang).prod

/-- Some part of the text is in the language, at the start or at the end if the
    pattern says so. -/
def Pattern.Matches (p : Pattern) (text : List Byte) : Prop :=
  ∃ before found after, text = before ++ found ++ after ∧ found ∈ itemsLang p.items ∧
    (p.first → before = []) ∧ (p.last → after = [])

/-! ## The matcher at one position -/

variable {c t : Byte} {re text : List Byte} {items : List Item} {last : Bool} {l : Language Byte}

/-- The text begins with a word of the language, or is one. -/
def Begins (l : Language Byte) (last : Bool) (text : List Byte) : Prop :=
  ∃ found after, text = found ++ after ∧ found ∈ l ∧ (last → after = [])

theorem begins_one : Begins 1 last text ↔ (last → text = []) := by
  constructor
  · rintro ⟨found, after, rfl, hfound, hafter⟩ hlast
    rw [(Language.mem_one found).mp hfound, hafter hlast]
    rfl
  · intro h
    exact ⟨[], text, rfl, Language.nil_mem_one, h⟩

theorem begins_add {l l' : Language Byte} :
    Begins (l + l') last text ↔ Begins l last text ∨ Begins l' last text := by
  constructor
  · rintro ⟨found, after, heq, hfound | hfound, hafter⟩
    · exact Or.inl ⟨found, after, heq, hfound, hafter⟩
    · exact Or.inr ⟨found, after, heq, hfound, hafter⟩
  · rintro (⟨found, after, heq, hfound, hafter⟩ | ⟨found, after, heq, hfound, hafter⟩)
    · exact ⟨found, after, heq, Or.inl hfound, hafter⟩
    · exact ⟨found, after, heq, Or.inr hfound, hafter⟩

theorem begins_char_nil : ¬Begins (charLang c * l) last [] := by
  rintro ⟨found, after, heq, hfound, -⟩
  obtain ⟨w, ⟨t, rfl, -⟩, v, -, rfl⟩ := Language.mem_mul.mp hfound
  cases heq

/-- A word that starts with a character takes one from the text. -/
theorem begins_char_cons :
    Begins (charLang c * l) last (t :: text) ↔ (c = DOT ∨ c = t) ∧ Begins l last text := by
  constructor
  · rintro ⟨found, after, heq, hfound, hafter⟩
    obtain ⟨w, ⟨t', rfl, ht'⟩, v, hv, rfl⟩ := Language.mem_mul.mp hfound
    obtain ⟨rfl, rfl⟩ := List.cons.inj heq
    exact ⟨ht', v, after, rfl, hv, hafter⟩
  · rintro ⟨ht, found, after, rfl, hfound, hafter⟩
    exact ⟨t :: found, after, rfl, Language.mem_mul.mpr ⟨[t], ⟨t, rfl, ht⟩, found, hfound, rfl⟩, hafter⟩

theorem itemsLang_nil : itemsLang [] = 1 := rfl

theorem itemsLang_one : itemsLang (.one c :: items) = charLang c * itemsLang items := by
  unfold itemsLang
  rw [List.map_cons, List.prod_cons]
  rfl

/-- A repetition is left out, or one character is taken and it goes on. -/
theorem itemsLang_star : itemsLang (.star c :: items) =
    itemsLang items + charLang c * itemsLang (.star c :: items) := by
  unfold itemsLang
  rw [List.map_cons, List.prod_cons]
  show (charLang c)∗ * _ = _ + charLang c * ((charLang c)∗ * _)
  rw [← mul_assoc, ← one_add_mul, Language.one_add_self_mul_kstar_eq_kstar]

/-- `matchstar` finds the items after the repetition at one of the positions the
    repetition can reach. -/
theorem matchstar_iff {here : List Byte → Bool}
    (hhere : ∀ text, here text = true ↔ Begins (itemsLang items) last text) :
    matchstar c here text = true ↔ Begins (itemsLang (.star c :: items)) last text := by
  -- one turn of the loop is one unfolding of the star
  induction text with
  | nil =>
    rw [itemsLang_star, begins_add, or_iff_left begins_char_nil]
    exact hhere []
  | cons t text ih =>
    have hturn : matchstar c here (t :: text) =
        if here (t :: text) then true else if t = c ∨ c = DOT then matchstar c here text else false := rfl
    rw [itemsLang_star, begins_add, begins_char_cons, ← ih, ← hhere, hturn]
    by_cases hfound : here (t :: text) = true
    · simp only [hfound, if_true, true_or]
    · rw [if_neg hfound, or_iff_right hfound]
      by_cases ht : t = c ∨ c = DOT
      · have ht' : c = DOT ∨ c = t := ht.symm.imp_right Eq.symm
        rw [if_pos ht, and_iff_right ht']
      · rw [if_neg ht]
        constructor
        · intro h
          cases h
        · rintro ⟨ht', -⟩
          exact absurd (ht'.symm.imp_left Eq.symm) ht

/-- The step over a single character, shared by its two places in `matchhere`. -/
theorem single_iff (hrest : ∀ text, matchhere re text = true ↔ Begins (itemsLang items) last text) :
    (match text with
      | [] => false
      | t :: text => if c = DOT ∨ c = t then matchhere re text else false) = true ↔
      Begins (itemsLang (.one c :: items)) last text := by
  rw [itemsLang_one]
  cases text with
  | nil =>
    constructor
    · intro h
      cases h
    · intro h
      exact (begins_char_nil h).elim
  | cons t text =>
    rw [begins_char_cons, ← hrest text]
    by_cases ht : c = DOT ∨ c = t
    · rw [and_iff_right ht]
      dsimp only
      rw [if_pos ht]
    · dsimp only
      rw [if_neg ht]
      constructor
      · intro h
        cases h
      · intro h
        exact absurd h.1 ht

/-- `matchhere` is right at every position. -/
theorem matchhere_iff (re text : List Byte) :
    matchhere re text = true ↔ Begins (itemsLang (readItems re).1) (readItems re).2 text := by
  induction re using readItems.induct generalizing text with
  | case1 =>
    unfold matchhere readItems
    rw [itemsLang_nil, begins_one]
    simp
  | case2 =>
    -- a last '$'
    unfold matchhere readItems
    rw [if_pos rfl, if_pos rfl, itemsLang_nil, begins_one]
    cases text with
    | nil => simp
    | cons t text => simp
  | case3 c hc =>
    unfold matchhere readItems
    rw [if_neg hc, if_neg hc]
    apply single_iff
    intro text
    rw [itemsLang_nil, begins_one]
    unfold matchhere
    simp
  | case4 c re ih =>
    unfold matchhere readItems
    rw [if_pos rfl, if_pos rfl]
    exact matchstar_iff ih
  | case5 c d re hd ih =>
    unfold matchhere readItems
    rw [if_neg hd, if_neg hd]
    exact single_iff ih

/-! ## The matcher at all positions -/

theorem match_loop_iff : match_loop re text = true ↔
    ∃ before rest, text = before ++ rest ∧ matchhere re rest = true := by
  induction text with
  | nil =>
    constructor
    · intro h
      exact ⟨[], [], rfl, h⟩
    · rintro ⟨before, rest, heq, h⟩
      obtain ⟨-, rfl⟩ := List.append_eq_nil_iff.mp heq.symm
      exact h
  | cons t text ih =>
    unfold match_loop
    by_cases hhere : matchhere re (t :: text) = true
    · rw [if_pos hhere]
      exact iff_of_true rfl ⟨[], t :: text, rfl, hhere⟩
    · rw [if_neg hhere, ih]
      constructor
      · rintro ⟨before, rest, rfl, h⟩
        exact ⟨t :: before, rest, rfl, h⟩
      · rintro ⟨before, rest, heq, h⟩
        cases before with
        | nil =>
          rw [List.nil_append] at heq
          rw [← heq] at h
          exact absurd h hhere
        | cons b before =>
          obtain ⟨rfl, rfl⟩ := List.cons.inj heq
          exact ⟨before, rest, rfl, h⟩

/-- The search without a leading `'^'`. -/
theorem match_loop_matches : match_loop re text = true ↔
    Pattern.Matches ⟨false, (readItems re).1, (readItems re).2⟩ text := by
  rw [match_loop_iff]
  constructor
  · rintro ⟨before, rest, rfl, h⟩
    obtain ⟨found, after, rfl, hfound, hafter⟩ := (matchhere_iff re rest).mp h
    exact ⟨before, found, after, (List.append_assoc ..).symm, hfound, by simp, hafter⟩
  · rintro ⟨before, found, after, rfl, hfound, -, hafter⟩
    exact ⟨before, found ++ after, List.append_assoc .., (matchhere_iff re _).mpr ⟨found, after, rfl, hfound, hafter⟩⟩

/-- The matcher accepts exactly the texts that the pattern describes. -/
theorem match_iff_matches (re text : List Byte) : «match» re text = true ↔ (readPattern re).Matches text := by
  unfold «match» readPattern
  cases re with
  | nil => exact match_loop_matches
  | cons c re =>
    dsimp only
    by_cases hc : c = CARET
    · rw [if_pos hc, if_pos hc, matchhere_iff]
      constructor
      · rintro ⟨found, after, rfl, hfound, hafter⟩
        exact ⟨[], found, after, rfl, hfound, fun _ => rfl, hafter⟩
      · rintro ⟨before, found, after, rfl, hfound, hbefore, hafter⟩
        rw [hbefore rfl]
        exact ⟨found, after, rfl, hfound, hafter⟩
    · rw [if_neg hc, if_neg hc]
      exact match_loop_matches

/-- In `'^**'` the second character is repeated; in `'^*'` it stands for itself. -/
example : (readPattern [CARET, STAR, STAR]).items = [.star STAR] ∧ (readPattern [CARET, STAR]).items = [.one STAR] :=
  ⟨rfl, rfl⟩

end Xv6.Grep
