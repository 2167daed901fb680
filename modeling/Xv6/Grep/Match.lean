import Mathlib

/-!
# The matcher of `grep`

`match`, `matchhere` and `matchstar` of `grep.c` against the language of the pattern. A string is the list
of its characters before the terminating NUL, and a pointer into it the rest of the list.
-/

open Computability List

namespace Xv6.Grep

/-! ## The code -/

/-- `s[i]`. The character behind the last one is the NUL. -/
def charAt (s : List UInt8) (i : Nat) : UInt8 := s.getD i 0

theorem lt_length_of_charAt {s : List UInt8} {i : Nat} (h : charAt s i ≠ 0) : i < s.length := by
  by_contra hi
  exact h (getD_eq_default s 0 (by omega))

mutual

/-- Search for `re` at the beginning of `text`. -/
def matchhere (re text : List UInt8) : Bool :=
  if charAt re 0 = 0 then true
  else if charAt re 1 = '*'.toUInt8 then matchstar (charAt re 0) (re.drop 2) text
  else if charAt re 0 = '$'.toUInt8 ∧ charAt re 1 = 0 then charAt text 0 = 0
  else if charAt text 0 ≠ 0 ∧ (charAt re 0 = '.'.toUInt8 ∨ charAt re 0 = charAt text 0) then
    matchhere (re.drop 1) (text.drop 1)
  else false
termination_by (re.length, text.length, 0)
decreasing_by all_goals
  have := lt_length_of_charAt ‹¬ charAt re 0 = 0›
  refine .left _ _ ?_
  rw [List.length_drop]
  omega

/-- Search for `c*re` at the beginning of `text`. -/
def matchstar (c : UInt8) (re text : List UInt8) : Bool :=
  if matchhere re text then true
  else if charAt text 0 ≠ 0 ∧ (charAt text 0 = c ∨ c = '.'.toUInt8) then matchstar c re (text.drop 1)
  else false
termination_by (re.length, text.length, 1)
decreasing_by
  · exact .right _ (.right _ Nat.one_pos)
  · have := lt_length_of_charAt (‹charAt text 0 ≠ 0 ∧ _›).1
    refine .right _ (.left _ _ ?_)
    rw [List.length_drop]
    omega

end

/-- The loop of `match`. It looks at the empty rest of the text too. -/
def matchLoop (re text : List UInt8) : Bool :=
  if matchhere re text then true
  else if charAt text 0 ≠ 0 then matchLoop re (text.drop 1)
  else false
termination_by text.length
decreasing_by
  have := lt_length_of_charAt ‹charAt text 0 ≠ 0›
  rw [List.length_drop]
  omega

/-- `match` -/
def reMatch (re text : List UInt8) : Bool :=
  if charAt re 0 = '^'.toUInt8 then matchhere (re.drop 1) text else matchLoop re text

/-! ## The language of a pattern -/

/-- One character or any number of them. -/
inductive Item
  | one (c : UInt8)
  | star (c : UInt8)

/-- `c` stands for `x` in a pattern. -/
def Admits (c x : UInt8) : Prop := c = '.'.toUInt8 ∨ c = x

/-- The words of one character that `c` stands for. -/
def single (c : UInt8) : Language UInt8 := {w | ∃ x, Admits c x ∧ w = [x]}

def Item.language : Item → Language UInt8
  | .one c => single c
  | .star c => (single c)∗

/-- The items of a pattern from left to right, and whether a last `$` asks for the end of the text. A
character with a `*` behind it is a repetition, whatever it is. -/
def items : List UInt8 → List Item × Bool
  | [] => ([], false)
  | [c] => if c = '$'.toUInt8 then ([], true) else ([.one c], false)
  | c :: d :: re =>
    if d = '*'.toUInt8 then (.star c :: (items re).1, (items re).2)
    else (.one c :: (items (d :: re)).1, (items (d :: re)).2)

/-- The text begins with a word of the items, and is that word when the end is asked for. -/
def Finds (p : List Item × Bool) (text : List UInt8) : Prop :=
  ∃ w rest, text = w ++ rest ∧ w ∈ (p.1.map Item.language).prod ∧ (p.2 = true → rest = [])

theorem finds_nil {e : Bool} {text : List UInt8} : Finds ([], e) text ↔ (e = true → text = []) := by
  constructor
  · rintro ⟨w, rest, rfl, hw, hend⟩ he
    rw [show w = [] from hw, hend he]
    rfl
  · exact fun h => ⟨[], text, rfl, rfl, h⟩

theorem finds_cons {i : Item} {is : List Item} {e : Bool} {text : List UInt8} :
    Finds (i :: is, e) text ↔ ∃ u t, text = u ++ t ∧ u ∈ i.language ∧ Finds (is, e) t := by
  constructor
  · rintro ⟨w, rest, rfl, hw, hend⟩
    obtain ⟨u, hu, v, hv, rfl⟩ := Language.mem_mul.mp (by simpa using hw)
    exact ⟨u, v ++ rest, append_assoc u v rest, hu, v, rest, rfl, hv, hend⟩
  · rintro ⟨u, t, rfl, hu, v, rest, rfl, hv, hend⟩
    refine ⟨u ++ v, rest, (append_assoc u v rest).symm, ?_, hend⟩
    rw [map_cons, prod_cons]
    exact Language.append_mem_mul hu hv

theorem finds_one {c : UInt8} {is : List Item} {e : Bool} {text : List UInt8} :
    Finds (.one c :: is, e) text ↔ ∃ x t, text = x :: t ∧ Admits c x ∧ Finds (is, e) t := by
  rw [finds_cons]
  constructor
  · rintro ⟨_, t, rfl, ⟨x, hx, rfl⟩, ht⟩
    exact ⟨x, t, rfl, hx, ht⟩
  · rintro ⟨x, t, rfl, hx, ht⟩
    exact ⟨[x], t, rfl, ⟨x, hx, rfl⟩, ht⟩

theorem finds_star {c : UInt8} {is : List Item} {e : Bool} {text : List UInt8} :
    Finds (.star c :: is, e) text ↔
      Finds (is, e) text ∨ ∃ x t, text = x :: t ∧ Admits c x ∧ Finds (.star c :: is, e) t := by
  simp only [finds_cons, Item.language]
  constructor
  · rintro ⟨u, t, rfl, hu, ht⟩
    rw [← Language.one_add_self_mul_kstar_eq_kstar] at hu
    obtain hnil | hmul := hu
    · rw [show u = [] from hnil]
      exact .inl ht
    · obtain ⟨_, ⟨x, hx, rfl⟩, v, hv, rfl⟩ := Language.mem_mul.mp hmul
      exact .inr ⟨x, v ++ t, rfl, hx, v, t, rfl, hv, ht⟩
  · rintro (ht | ⟨x, t, rfl, hx, v, rest, rfl, hv, ht⟩)
    · exact ⟨[], text, rfl, Language.nil_mem_kstar _, ht⟩
    · refine ⟨x :: v, rest, rfl, ?_, ht⟩
      rw [← Language.one_add_self_mul_kstar_eq_kstar]
      exact .inr (Language.append_mem_mul (show [x] ∈ single c from ⟨x, hx, rfl⟩) hv)

/-! ## The matcher finds the language -/

variable {re text : List UInt8} {c x : UInt8}

@[simp] theorem charAt_nil {i : Nat} : charAt [] i = 0 := rfl
@[simp] theorem charAt_cons_zero : charAt (c :: re) 0 = c := rfl
@[simp] theorem charAt_cons_succ {i : Nat} : charAt (c :: re) (i + 1) = charAt re i := rfl

theorem matchhere_nil : matchhere [] text = true := by
  rw [matchhere, if_pos charAt_nil]

theorem matchhere_star (hc : c ≠ 0) : matchhere (c :: '*'.toUInt8 :: re) text = matchstar c re text := by
  rw [matchhere, charAt_cons_zero, if_neg hc, charAt_cons_succ, if_pos charAt_cons_zero]
  rfl

theorem matchhere_end : matchhere ['$'.toUInt8] text = decide (charAt text 0 = 0) := by
  rw [matchhere, if_neg (by decide), if_neg (by decide), if_pos (by decide)]

theorem matchhere_one (hc : c ≠ 0) (hstar : charAt re 0 ≠ '*'.toUInt8)
    (hend : ¬ (c = '$'.toUInt8 ∧ charAt re 0 = 0)) (htext : 0 ∉ text) :
    matchhere (c :: re) text ↔ ∃ x t, text = x :: t ∧ Admits c x ∧ matchhere re t := by
  rw [matchhere, charAt_cons_zero, charAt_cons_succ, if_neg hc, if_neg hstar, if_neg hend]
  cases text with
  | nil => simp
  | cons x t =>
    have hx : x ≠ 0 := fun h => htext (by simp [h])
    simp [hx, Admits]

theorem matchstar_cons (hx : x ≠ 0) :
    matchstar c re (x :: text) ↔ matchhere re (x :: text) ∨ Admits c x ∧ matchstar c re text := by
  rw [matchstar, Admits, or_comm (a := c = _), eq_comm (a := c) (b := x)]
  simp [hx]

theorem matchstar_iff {p : List Item × Bool} (hre : ∀ t, 0 ∉ t → (matchhere re t ↔ Finds p t))
    (htext : 0 ∉ text) : matchstar c re text ↔ Finds (.star c :: p.1, p.2) text := by
  induction text with
  | nil =>
    rw [matchstar, finds_star, ← hre [] htext]
    simp
  | cons x t ih =>
    rw [mem_cons, not_or] at htext
    rw [matchstar_cons (Ne.symm htext.1), finds_star, hre (x :: t) (by simpa using htext), ih htext.2]
    simp

/-- `matchhere` looks for the items. Each recursive call is on the pattern behind an item. -/
theorem matchhere_iff (hre : 0 ∉ re) (htext : 0 ∉ text) : matchhere re text ↔ Finds (items re) text := by
  induction re using items.induct generalizing text with
  | case1 => simp [matchhere_nil, items, finds_nil]
  | case2 =>
    rw [matchhere_end, items, if_pos rfl, finds_nil]
    cases text with
    | nil => simp
    | cons x t =>
      have hx : x ≠ 0 := fun h => htext (by simp [h])
      simp [hx]
  | case3 c hc =>
    rw [matchhere_one (fun h => hre (by simp [h])) (by decide) (fun h => hc h.1) htext, items, if_neg hc,
      finds_one]
    simp [matchhere_nil, finds_nil]
  | case4 c re ih =>
    have hc : c ≠ 0 := fun h => hre (by simp [h])
    have hre' : 0 ∉ re := fun h => hre (by simp [h])
    rw [matchhere_star hc, items, if_pos rfl]
    exact matchstar_iff (fun t ht => ih hre' ht) htext
  | case5 c d re hd ih =>
    have hne : ∀ a ∈ c :: d :: re, a ≠ 0 := fun a ha h => hre (h ▸ ha)
    rw [matchhere_one (hne c (by simp)) (show charAt (d :: re) 0 ≠ _ from hd) (fun h => hne d (by simp) h.2)
      htext, items, if_neg hd, finds_one]
    refine exists₂_congr fun x t => and_congr_right fun ht => and_congr_right fun _ => ?_
    exact ih (fun h => hne 0 (by simp [h]) rfl) fun h => htext (by simp [ht, h])

theorem matchLoop_iff (htext : 0 ∉ text) :
    matchLoop re text ↔ ∃ before t, text = before ++ t ∧ matchhere re t := by
  induction text with
  | nil =>
    rw [matchLoop]
    simp
  | cons x t ih =>
    rw [mem_cons, not_or] at htext
    have hstep : matchLoop re (x :: t) ↔ matchhere re (x :: t) ∨ matchLoop re t := by
      rw [matchLoop]
      simp [Ne.symm htext.1]
    rw [hstep, ih htext.2]
    constructor
    · rintro (h | ⟨before, u, rfl, h⟩)
      · exact ⟨[], x :: t, rfl, h⟩
      · exact ⟨x :: before, u, rfl, h⟩
    · rintro ⟨before, u, heq, h⟩
      cases before with
      | nil => exact .inl (heq ▸ h)
      | cons y before => exact .inr ⟨before, u, (List.cons.inj heq).2, h⟩

/-- The pattern without a `^` at its beginning. -/
def body (re : List UInt8) : List UInt8 := if charAt re 0 = '^'.toUInt8 then re.drop 1 else re

/-- `match` is right: a word of the pattern begins somewhere in the text, at its beginning if the pattern
begins with `^`, and goes to its end if the pattern ends in an unstarred `$`. -/
theorem reMatch_iff (re text : List UInt8) (hre : 0 ∉ re) (htext : 0 ∉ text) :
    reMatch re text = true ↔ ∃ before t, text = before ++ t ∧
      (re.head? = some '^'.toUInt8 → before = []) ∧ Finds (items (body re)) t := by
  unfold reMatch body
  by_cases hcaret : charAt re 0 = '^'.toUInt8
  · have hhead : re.head? = some '^'.toUInt8 := by
      cases re with
      | nil => exact absurd hcaret (by decide)
      | cons c re => exact congrArg some hcaret
    rw [if_pos hcaret, if_pos hcaret, matchhere_iff (fun h => hre (List.mem_of_mem_drop h)) htext]
    constructor
    · exact fun h => ⟨[], text, rfl, fun _ => rfl, h⟩
    · rintro ⟨before, t, rfl, hb, h⟩
      rwa [hb hhead]
  · have hhead : re.head? ≠ some '^'.toUInt8 := by
      cases re with
      | nil => simp
      | cons c re => exact fun h => hcaret (Option.some.inj h)
    rw [if_neg hcaret, if_neg hcaret, matchLoop_iff htext]
    refine exists₂_congr fun before t => and_congr_right fun ht => ?_
    rw [matchhere_iff hre fun h => htext (by simp [ht, h])]
    exact ⟨fun h => ⟨fun hc => absurd hc hhead, h⟩, And.right⟩

/-- `b*c` finds `bc` in `abc`. -/
theorem reMatch_iff_abc : reMatch [98, 42, 99] [97, 98, 99] = true := by
  refine (reMatch_iff _ _ (by decide) (by decide)).mpr ⟨[97], [98, 99], rfl, by decide, ?_⟩
  refine finds_star.mpr (.inr ⟨98, [99], rfl, .inr rfl, finds_star.mpr (.inl ?_)⟩)
  exact finds_one.mpr ⟨99, [], rfl, .inr rfl, finds_nil.mpr fun _ => rfl⟩

end Xv6.Grep
