import Xv6.Sh.Grammar

/-!
# Tokens of the line

`peek` and `gettoken` see the token sequence of what is left of the line.
-/

open List

namespace Xv6.Sh

open Cmd

/-! ## The first token -/

theorem skip_cons_space {c : UInt8} {s : List UInt8} (h : c ∈ whitespace) : skip (c :: s) = skip s := by
  simp [skip, h]

theorem skip_of_head {s : List UInt8} (h : ∀ c ∈ s.head?, c ∉ whitespace) : skip s = s := by
  cases s with
  | nil => rfl
  | cons c s => simp [skip, h c rfl]

theorem skip_suffix (s : List UInt8) : skip s <:+ s := dropWhile_suffix _

theorem whitespace_of_inWord {c : UInt8} (h : inWord c) : c ∉ whitespace := by
  simp only [inWord, Bool.and_eq_true, Bool.not_eq_true'] at h
  simpa using h.1

theorem symbols_of_inWord {c : UInt8} (h : inWord c) : c ∉ symbols := by
  simp only [inWord, Bool.and_eq_true, Bool.not_eq_true'] at h
  simpa using h.2

namespace Tok

theorem spell_ne_nil {t : Tok} (h : t.Proper) : t.spell ≠ [] := by
  cases t with
  | word w => exact h.1
  | _ => simp [spell]

theorem spell_head {t : Tok} (h : t.Proper) : ∀ c ∈ t.spell.head?, c ∉ whitespace := by
  cases t with
  | word w =>
    intro c hc
    exact whitespace_of_inWord (h.2 c (mem_of_mem_head? hc))
  | _ =>
    intro c hc
    obtain rfl := Option.some.inj hc
    decide

theorem skip_spell {t : Tok} (h : t.Proper) (r : List UInt8) : skip (t.spell ++ r) = t.spell ++ r := by
  refine skip_of_head ?_
  rw [List.head?_append_of_ne_nil _ (spell_ne_nil h)]
  exact spell_head h

/-- What `gettoken` returns for the token. -/
def code : Tok → UInt8
  | word _ => ch 'a'
  | bar => ch '|'
  | amp => ch '&'
  | semi => ch ';'
  | lpar => ch '('
  | rpar => ch ')'
  | lt => ch '<'
  | gt => ch '>'
  | gtgt => ch '+'

/-- The first byte of a symbol. -/
def lead : Tok → Option UInt8
  | word _ => none
  | bar => some (ch '|')
  | amp => some (ch '&')
  | semi => some (ch ';')
  | lpar => some (ch '(')
  | rpar => some (ch ')')
  | lt => some (ch '<')
  | gt | gtgt => some (ch '>')

end Tok

theorem dropWhile_word {w r : List UInt8} (hw : ∀ c ∈ w, inWord c) (hr : ∀ c ∈ r.head?, ¬ inWord c) :
    (w ++ r).dropWhile inWord = r := by
  rw [dropWhile_append_of_pos hw]
  cases r with
  | nil => rfl
  | cons c r => exact dropWhile_cons_of_neg (hr c rfl)

theorem scan_word {w r : List UInt8} (hne : w ≠ []) (hw : ∀ c ∈ w, inWord c)
    (hr : ∀ c ∈ r.head?, ¬ inWord c) : scan (w ++ r) = (ch 'a', r) := by
  obtain ⟨c, u, rfl⟩ := exists_cons_of_ne_nil hne
  have hc : c ∉ symbols := symbols_of_inWord (hw c (by simp))
  have h1 : (['|', '(', ')', ';', '&', '<'].map ch).contains c = false := by
    simp only [symbols, map_cons, map_nil, mem_cons, not_or] at hc
    simp [hc]
  have h2 : c ≠ ch '>' := by
    rintro rfl
    exact hc (by decide)
  rw [cons_append, scan, h1, if_neg (by simp), if_neg h2, ← cons_append, dropWhile_word hw hr]

theorem scan_spell {t : Tok} {r : List UInt8} (hp : t.Proper) (he : t.Stops r) :
    scan (t.spell ++ r) = (t.code, r) := by
  cases t with
  | word w => exact scan_word hp.1 hp.2 he
  | gt => 
    have : scan (ch '>' :: r) = (ch '>', r) := by
      rw [scan, if_neg (by decide), if_pos rfl, if_neg he]
    exact this
  | _ => rfl

/-! ## Tokens of the rest of the line -/

theorem Tokens.skip {s : List UInt8} {ts : List Tok} (h : Tokens s ts) : Tokens (skip s) ts := by
  induction h with
  | nil => exact .nil
  | space hc _ ih => rwa [skip_cons_space hc]
  | tok hp he h _ =>
    rw [Tok.skip_spell hp]
    exact .tok hp he h

theorem Tokens.of_nil {s : List UInt8} (h : Tokens s []) : Sh.skip s = [] := by
  generalize hts : ([] : List Tok) = ts at h
  induction h with
  | nil => rfl
  | space hc _ ih => rw [skip_cons_space hc, ih hts]
  | tok => cases hts

theorem Tokens.of_cons {s : List UInt8} {t : Tok} {ts : List Tok} (h : Tokens s (t :: ts)) :
    ∃ r, Sh.skip s = t.spell ++ r ∧ t.Proper ∧ t.Stops r ∧ Tokens r ts := by
  generalize hts : t :: ts = ts' at h
  induction h with
  | nil => cases hts
  | space hc _ ih => rw [skip_cons_space hc]; exact ih hts
  | tok hp he h _ =>
    cases hts
    exact ⟨_, Tok.skip_spell hp _, hp, he, h⟩

theorem Tokens.nil_of_skip {s : List UInt8} {ts : List Tok} (h : Tokens s ts) (hs : Sh.skip s = []) :
    ts = [] := by
  cases ts with
  | nil => rfl
  | cons t ts =>
    obtain ⟨r, hr, hp, -⟩ := h.of_cons
    rw [hs] at hr
    exact absurd (append_eq_nil_iff.mp hr.symm).1 (Tok.spell_ne_nil hp)

theorem exists_token {c : UInt8} {s : List UInt8} (hc : c ∉ whitespace) :
    ∃ t : Tok, ∃ r, c :: s = t.spell ++ r ∧ t.Proper ∧ t.Stops r := by
  by_cases hw : inWord c
  · refine ⟨.word ((c :: s).takeWhile inWord), (c :: s).dropWhile inWord,
      takeWhile_append_dropWhile.symm, ⟨by simp [hw], fun d hd => mem_takeWhile_imp hd⟩, ?_⟩
    intro d hd hdw
    have := List.head?_dropWhile_not inWord (c :: s)
    simp_all
  · have hsym : c ∈ symbols := by
      simpa [inWord, hc] using hw
    simp only [symbols, map_cons, map_nil, mem_cons, not_mem_nil, or_false] at hsym
    rcases hsym with rfl | rfl | rfl | rfl | rfl | rfl | rfl
    · exact ⟨.lt, s, rfl, trivial, trivial⟩
    · exact ⟨.bar, s, rfl, trivial, trivial⟩
    · by_cases hs : s.head? = some (ch '>')
      · obtain ⟨r, rfl⟩ := List.head?_eq_some_iff.mp hs
        exact ⟨.gtgt, r, rfl, trivial, trivial⟩
      · exact ⟨.gt, s, rfl, trivial, hs⟩
    · exact ⟨.amp, s, rfl, trivial, trivial⟩
    · exact ⟨.semi, s, rfl, trivial, trivial⟩
    · exact ⟨.lpar, s, rfl, trivial, trivial⟩
    · exact ⟨.rpar, s, rfl, trivial, trivial⟩

theorem exists_tokens (s : List UInt8) : ∃ ts, Tokens s ts := by
  induction hn : s.length using Nat.strong_induction_on generalizing s with
  | _ n ih =>
    subst hn
    cases s with
    | nil => exact ⟨[], .nil⟩
    | cons c s =>
      by_cases hc : c ∈ whitespace
      · obtain ⟨ts, hts⟩ := ih s.length (by simp) s rfl
        exact ⟨ts, .space hc hts⟩
      · obtain ⟨t, r, hr, hp, he⟩ := exists_token (s := s) hc
        have hlt : r.length < (c :: s).length := by
          have := length_pos_of_ne_nil (Tok.spell_ne_nil hp)
          rw [hr, length_append]
          omega
        obtain ⟨ts, hts⟩ := ih r.length hlt r rfl
        exact ⟨t :: ts, hr ▸ .tok hp he hts⟩

theorem Tok.eq_of_code {t u : Tok} (hc : t.code = u.code) (hs : t.spell = u.spell) : t = u := by
  cases t <;> cases u <;> first
    | rfl
    | exact congrArg word hs
    | (simp only [code] at hc; exact absurd hc (by decide))

theorem Tokens.unique {s : List UInt8} {ts us : List Tok} (h : Tokens s ts) (h' : Tokens s us) :
    ts = us := by
  induction ts generalizing s us with
  | nil => exact (h'.nil_of_skip h.of_nil).symm
  | cons t ts ih =>
    obtain ⟨r, hr, hp, he, ht⟩ := h.of_cons
    cases us with
    | nil => exact h.nil_of_skip h'.of_nil
    | cons u us =>
      obtain ⟨r', hr', hp', he', ht'⟩ := h'.of_cons
      have hsc : (t.code, r) = (u.code, r') := by
        rw [← scan_spell hp he, ← scan_spell hp' he', ← hr, ← hr']
      obtain ⟨hc, rfl⟩ := Prod.mk.inj hsc
      obtain rfl := Tok.eq_of_code hc (append_cancel_right (hr.symm.trans hr'))
      rw [ih ht ht']

/-! ## Strings of the line -/

/-- The bytes of the line between two positions. -/
def text (line : List UInt8) (w : Span) : List UInt8 := (line.drop w.1).take (w.2 - w.1)

/-- A word of the line, as long as it can be. -/
def IsWord (line : List UInt8) (w : Span) : Prop :=
  ∃ p u r, line = p ++ (u ++ r) ∧ w = (p.length, p.length + u.length) ∧
    (∀ c ∈ u, inWord c) ∧ ∀ c ∈ r.head?, ¬ inWord c

theorem text_eq (p u r : List UInt8) : text (p ++ (u ++ r)) (p.length, p.length + u.length) = u := by
  simp [text]

/-! ## Looking at the line -/

/-- What is left of `line` is `s`, and its tokens are `ts`. -/
structure Left (line s : List UInt8) (ts : List Tok) : Prop where
  suffix : s <:+ line
  tokens : Tokens s ts

/-- The first token begins with one of `toks`. -/
def starts (toks : List Char) (ts : List Tok) : Bool :=
  ts.head?.any fun t => t.lead.any ((toks.map ch).contains ·)

variable {line s : List UInt8} {ts : List Tok} {t : Tok}

theorem Left.skip (h : Left line s ts) : Left line (Sh.skip s) ts :=
  ⟨(skip_suffix s).trans h.suffix, h.tokens.skip⟩

theorem spell_head_contains {toks : List Char} (htoks : toks.all (ch · ∈ symbols) = true) (hp : t.Proper) :
    t.spell.head?.any ((toks.map ch).contains ·) = t.lead.any ((toks.map ch).contains ·) := by
  cases t with
  | word w =>
    obtain ⟨c, u, rfl⟩ := exists_cons_of_ne_nil hp.1
    have hc : c ∉ symbols := symbols_of_inWord (hp.2 c (by simp))
    have hnot : c ∉ toks.map ch := by
      intro hmem
      obtain ⟨d, hd, rfl⟩ := mem_map.mp hmem
      exact hc (of_decide_eq_true (all_eq_true.mp htoks d hd))
    rw [Tok.spell, Tok.lead, List.head?_cons, Option.any_some, Option.any_none]
    exact Bool.eq_false_iff.mpr (mt contains_iff_mem.mp hnot)
  | _ => simp only [Tok.spell, Tok.lead, List.head?_cons]

theorem peek_spec {toks : List Char} (htoks : toks.all (ch · ∈ symbols) = true) (h : Left line s ts) :
    ∃ s', peek toks s = .ok (starts toks ts, s') ∧ Left line s' ts ∧ s'.length ≤ s.length := by
  refine ⟨Sh.skip s, ?_, h.skip, (skip_suffix s).length_le⟩
  cases ts with
  | nil => simp [peek, starts, h.tokens.of_nil]
  | cons t ts =>
    obtain ⟨r, hr, hp, -⟩ := h.tokens.of_cons
    have hhead : (Sh.skip s).head? = t.spell.head? := by
      rw [hr, List.head?_append_of_ne_nil _ (Tok.spell_ne_nil hp)]
    simp only [peek, hhead, spell_head_contains htoks hp]
    rfl

theorem gettoken_nil (h : Left line s []) :
    ∃ w s', gettoken line.length s = .ok ((0, w), s') ∧ Left line s' [] ∧ s'.length ≤ s.length := by
  refine ⟨(line.length, line.length), [], ?_, ⟨nil_suffix, .nil⟩, Nat.zero_le _⟩
  simp only [gettoken, h.tokens.of_nil]
  rfl

theorem gettoken_cons (h : Left line s (t :: ts)) :
    ∃ w s', gettoken line.length s = .ok ((t.code, w), s') ∧ Left line s' ts ∧ s'.length < s.length ∧
      (∀ u, t = .word u → IsWord line w ∧ text line w = u) := by
  obtain ⟨r, hr, hp, he, hts⟩ := h.tokens.of_cons
  obtain ⟨p, hline⟩ := h.skip.suffix
  rw [hr] at hline
  have hrline : r <:+ line := ⟨p ++ t.spell, by rw [append_assoc, hline]⟩
  have hlen : r.length < s.length := by
    have h1 := length_pos_of_ne_nil (Tok.spell_ne_nil hp)
    have h2 := (skip_suffix s).length_le
    rw [hr, length_append] at h2
    omega
  refine ⟨(p.length, p.length + t.spell.length), Sh.skip r, ?_, Left.skip ⟨hrline, hts⟩,
    (skip_suffix r).length_le.trans_lt hlen, ?_⟩
  · simp only [gettoken, hr, scan_spell hp he, ← hline, length_append]
    congr 4 <;> omega
  · rintro u rfl
    refine ⟨⟨p, u, r, hline.symm, rfl, hp.2, he⟩, ?_⟩
    rw [← hline]
    exact text_eq p u r

end Xv6.Sh
