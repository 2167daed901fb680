import Xv6.Sh.Complete

/-!
# The parser accepts exactly its grammar
-/

open List

namespace Xv6.Sh

open Cmd

/-! ## NUL after every string -/

theorem nulterminate_eq (buf : List UInt8) (cmd : Tree Span) :
    nulterminate buf cmd = cmd.spans.foldl (fun buf w => buf.set w.2 0) buf := by
  induction cmd generalizing buf with
  | execcmd argv => rfl
  | redircmd cmd file mode fd ih => simp [nulterminate, Tree.spans, ih]
  | pipecmd left right ihl ihr | listcmd left right ihl ihr =>
    simp [nulterminate, Tree.spans, ihl, ihr]
  | backcmd cmd ih => exact ih buf

section Nul

variable {ws : List Span} {buf : List UInt8} {i : Nat}

theorem getElem?_nul_of_notMem (h : ∀ w ∈ ws, w.2 ≠ i) :
    (ws.foldl (fun buf w => buf.set w.2 0) buf)[i]? = buf[i]? := by
  induction ws generalizing buf with
  | nil => rfl
  | cons w ws ih =>
    rw [foldl_cons, ih fun x hx => h x (mem_cons_of_mem w hx),
      List.getElem?_set_ne (h w mem_cons_self)]

theorem getElem?_nul_of_zero (h : buf[i]? = some 0) :
    (ws.foldl (fun buf w => buf.set w.2 0) buf)[i]? = some 0 := by
  induction ws generalizing buf with
  | nil => exact h
  | cons w ws ih =>
    refine ih ?_
    rw [List.getElem?_set]
    have hlt : i < buf.length := (List.getElem?_eq_some_iff.mp h).1
    split
    · next hw => rw [if_pos (hw ▸ hlt)]
    · exact h

theorem getElem?_nul_of_mem {w : Span} (h : w ∈ ws) (hlt : w.2 < buf.length) :
    (ws.foldl (fun buf w => buf.set w.2 0) buf)[w.2]? = some 0 := by
  induction ws generalizing buf with
  | nil => cases h
  | cons x ws ih =>
    rw [foldl_cons]
    rcases mem_cons.mp h with rfl | h
    · exact getElem?_nul_of_zero (List.getElem?_set_self hlt)
    · exact ih h (by simpa using hlt)

end Nul

theorem cstr_eq {b u : List UInt8} {q : Nat} (hu : 0 ∉ u) (h : ∀ i < u.length, b[q + i]? = u[i]?)
    (h0 : b[q + u.length]? = some 0) : cstr b q = u := by
  induction u generalizing q with
  | nil =>
    obtain ⟨hlt, hb⟩ := List.getElem?_eq_some_iff.mp h0
    simp only [length_nil, Nat.add_zero] at hlt hb
    rw [cstr, drop_eq_getElem_cons hlt, hb]
    rfl
  | cons c u ih =>
    obtain ⟨hlt, hb⟩ := List.getElem?_eq_some_iff.mp (h 0 (by simp))
    simp only [Nat.add_zero] at hlt hb
    have hc : c ≠ 0 := fun h => hu (by simp [h])
    have hrest : cstr b (q + 1) = u := by
      refine ih (fun h => hu (mem_cons_of_mem c h)) (fun i hi => ?_) ?_
      · rw [Nat.add_assoc, Nat.add_comm 1 i]
        exact h (i + 1) (by simpa using hi)
      · rw [Nat.add_assoc, Nat.add_comm 1]
        exact h0
    rw [cstr, drop_eq_getElem_cons hlt, hb, takeWhile_cons_of_pos (by simpa using hc), ← cstr, hrest]

theorem IsWord.end_not_inside {str : List UInt8} {w x : Span} (hw : IsWord str w) (hx : IsWord str x)
    {i : Nat} (h1 : w.1 ≤ i) (h2 : i < w.2) : x.2 ≠ i := by
  obtain ⟨p, u, r, hline, rfl, hu, -⟩ := hw
  obtain ⟨p', u', r', hline', rfl, -, hr'⟩ := hx
  rintro rfl
  obtain ⟨j, hj⟩ := Nat.exists_eq_add_of_le h1
  simp only at h2 hj
  have hjlt : j < u.length := by omega
  have h3 : str[p'.length + u'.length]? = r'.head? := by
    rw [hline', ← append_assoc, List.getElem?_append_right (by simp), List.head?_eq_getElem?]
    simp
  have h4 : str[p'.length + u'.length]? = some u[j] := by
    rw [hj, hline, List.getElem?_append_right (by omega), List.getElem?_append_left (by omega)]
    simp [hjlt]
  exact hr' u[j] (h3.symm.trans h4) (hu _ (getElem_mem hjlt))

theorem cstr_nulterminate {line : List UInt8} {cmd : Tree Span} {w : Span} (hz : 0 ∉ line)
    (hcmd : Words line cmd) (hw : w ∈ cmd.spans) :
    cstr (nulterminate (line ++ [0]) cmd) w.1 = text line w := by
  have hword := hcmd w hw
  have hword' := hword
  obtain ⟨p, u, r, rfl, rfl, hu, hr⟩ := hword'
  rw [text_eq, nulterminate_eq]
  refine cstr_eq (fun h => hz (by simp [h])) (fun i hi => ?_) ?_
  · rw [getElem?_nul_of_notMem fun x hx =>
      hword.end_not_inside (hcmd x hx) (i := p.length + i) (by simp) (by simpa using hi)]
    rw [append_assoc, List.getElem?_append_right (by omega), append_assoc,
      List.getElem?_append_left (by omega)]
    simp
  · exact getElem?_nul_of_mem hw (by simp)

theorem strings_nulterminate {line : List UInt8} {cmd : Tree Span} (hz : 0 ∉ line)
    (hcmd : Words line cmd) : cmd.strings (nulterminate (line ++ [0]) cmd) = cmd.texts line :=
  Tree.map_congr fun _ hw => cstr_nulterminate hz hcmd hw

/-! ## The whole line -/

theorem parsecmd_eq (s : List UInt8) : parsecmd s =
    match parseline s.length (turns s.length) s with
    | .error e => .error e
    | .ok (cmd, rest) =>
      if skip rest ≠ [] then .error (.leftovers (skip rest) "syntax")
      else .ok (cmd, nulterminate (s ++ [0]) cmd) := by
  unfold parsecmd
  cases h : parseline s.length (turns s.length) s with
  | error e => simp only [bind_of_error h]
  | ok r => simp only [bind_of_ok h]; rfl

theorem parsecmd_halts (s : List UInt8) : parsecmd s ≠ .error .hang := by
  obtain ⟨ts, hts⟩ := exists_tokens s
  have hs := (parse_sound (turns s.length)).1 .line s ts ⟨suffix_rfl, hts⟩ (by rfl)
  rw [parsecmd_eq]
  cases h : parseline s.length (turns s.length) s with
  | error e =>
    simp only [Ends, parse, h] at hs
    exact fun he => hs (Except.error.inj he)
  | ok r =>
    dsimp only
    split <;> simp

theorem parsecmd_derives {s : List UInt8} {cmd : Tree Span} {buf : List UInt8} (hz : 0 ∉ s)
    (h : parsecmd s = .ok (cmd, buf)) : ∃ ts, Tokens s ts ∧ Derives .line ts (cmd.strings buf) := by
  obtain ⟨ts, hts⟩ := exists_tokens s
  have hs := (parse_sound (turns s.length)).1 .line s ts ⟨suffix_rfl, hts⟩ (by rfl)
  rw [parsecmd_eq] at h
  cases hp : parseline s.length (turns s.length) s with
  | error e => simp [hp] at h
  | ok r =>
    simp only [Ends, parse, hp] at hs h
    split at h
    · cases h
    next hrest =>
      cases h
      obtain ⟨ts1, ts2, rfl, hd, hleft, -, hw⟩ := hs
      obtain rfl := hleft.tokens.nil_of_skip (not_not.mp hrest)
      rw [strings_nulterminate hz hw]
      exact ⟨_, hts, by simpa using hd⟩

theorem parsecmd_of_derives {s : List UInt8} {ts : List Tok} {t : Tree (List UInt8)} (hz : 0 ∉ s)
    (hts : Tokens s ts) (hd : Derives .line ts t) :
    ∃ cmd buf, parsecmd s = .ok (cmd, buf) ∧ cmd.strings buf = t := by
  have hleft : Left s s (ts ++ []) := ⟨suffix_rfl, by simpa using hts⟩
  obtain ⟨cmd, rest, hp, hrest, -, ht⟩ :=
    (parse_complete hd (turns s.length) s [] hleft (.inl rfl) (by rfl)).ok
  have hrun : parsecmd s = .ok (cmd, nulterminate (s ++ [0]) cmd) := by
    rw [parsecmd_eq, show parseline s.length (turns s.length) s = .ok (cmd, rest) from hp]
    simp [hrest.tokens.of_nil]
  refine ⟨cmd, _, hrun, ?_⟩
  -- the strings are those of a derivation of the same line
  have hs := (parse_sound (turns s.length)).1 .line s _ hleft (by rfl)
  rw [Ends, hp] at hs
  obtain ⟨-, -, -, -, -, -, hw⟩ := hs
  rw [strings_nulterminate hz hw, ht]

/-- Every line without a NUL has one token sequence, and `parsecmd` comes to an end on it. It
returns a tree exactly when the tokens derive from `line`, and the tree, with the strings its
pointers then see, is the tree of the derivation. -/
theorem parsecmd_accepts_grammar {s : List UInt8} (hz : 0 ∉ s) :
    (∃! ts, Tokens s ts) ∧ parsecmd s ≠ .error .hang ∧
      ∀ t, (∃ cmd buf, parsecmd s = .ok (cmd, buf) ∧ cmd.strings buf = t) ↔
        ∃ ts, Tokens s ts ∧ Derives .line ts t := by
  refine ⟨?_, parsecmd_halts s, fun t => ⟨?_, ?_⟩⟩
  · obtain ⟨ts, hts⟩ := exists_tokens s
    exact ⟨ts, hts, fun us hus => hus.unique hts⟩
  · rintro ⟨cmd, buf, h, rfl⟩
    exact parsecmd_derives hz h
  · rintro ⟨ts, hts, hd⟩
    exact parsecmd_of_derives hz hts hd

/-- The line `(a>f;b)&` and its tree. -/
theorem parsecmd_accepts_grammar_block : ∃ ts, Tokens (['(', 'a', '>', 'f', ';', 'b', ')', '&'].map ch) ts ∧
    Derives .line ts (.backcmd (.listcmd
      (.redircmd (.execcmd [[ch 'a']]) [ch 'f'] (O_WRONLY ||| O_CREATE) 1) (.execcmd [[ch 'b']]))) :=
  ((parsecmd_accepts_grammar (by decide)).2.2 _).mp ⟨_, _, rfl, by decide⟩

example : parsecmd (['(', 'a'].map ch) = .error (.panic "syntax - missing )") := by decide

end Xv6.Sh
