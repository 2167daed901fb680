import Xv6.Sh.Parse

/-!
# Every derivation is found

The parser decides by the next token. A derivation is found when what follows it is a token that can
stand after its symbol.
-/

open List

namespace Xv6.Sh

open Cmd

/-- The first bytes of the tokens that can follow a symbol. -/
def Sym.follow : Sym → List Char
  | .line => [')']
  | .pipe => [')', '&', ';']
  | .exec => [')', '&', ';', '|']

def Follow (y : Sym) (ts : List Tok) : Prop := ts = [] ∨ starts y.follow ts = true

section Follow

variable {y : Sym} {ts : List Tok}

theorem Follow.exec (h : Follow y ts) : Follow .exec ts := by
  rcases h with rfl | h
  · exact .inl rfl
  · refine .inr ?_
    cases ts with
    | nil => exact h
    | cons t ts =>
      simp only [starts, List.head?_cons, Option.any_some, Option.any_eq_true] at h ⊢
      obtain ⟨b, hb, hmem⟩ := h
      refine ⟨b, hb, ?_⟩
      cases y <;> simp [Sym.follow] at hmem ⊢ <;> tauto

theorem Follow.pipe (h : Follow .line ts) : Follow .pipe ts := by
  rcases h with rfl | h
  · exact .inl rfl
  · obtain ⟨us, rfl⟩ := cons_of_starts .rpar rfl (by decide) h
    exact .inr rfl

theorem Follow.not_starts {toks : List Char} (h : Follow y ts)
    (hdisj : y.follow.all (ch · ∉ toks.map ch) = true) : starts toks ts = false := by
  rcases h with rfl | h
  · rfl
  · cases ts with
    | nil => rfl
    | cons t ts =>
      simp only [starts, List.head?_cons, Option.any_some, Option.any_eq_true] at h ⊢
      obtain ⟨b, hb, hmem⟩ := h
      obtain ⟨c, hc, rfl⟩ := mem_map.mp (contains_iff_mem.mp hmem)
      rw [hb, Option.any_some]
      simpa using all_eq_true.mp hdisj c hc

end Follow

/-- Nothing stops the parser. -/
def Never (_ : Stop) : Prop := False

variable {line : List UInt8}

theorem parseredirs_complete (rs : List Redir) : ∀ n s ts cmd, Left line s (redirToks rs ++ ts) →
    starts ['<', '>'] ts = false → s.length < n →
    Ends Never (parseredirs line.length n cmd) s fun cmd' s' =>
      Left line s' ts ∧ s'.length ≤ s.length ∧ cmd'.texts line = (cmd.texts line).under rs := by
  induction rs with
  | nil =>
    intro n s ts cmd h hst hn
    obtain ⟨n, rfl⟩ := Nat.exists_eq_add_of_lt hn
    rw [parseredirs]
    refine ends_peek (by decide) h fun s1 h1 hle1 => ?_
    have hst' : starts ['<', '>'] (redirToks [] ++ ts) = false := hst
    rw [hst']
    exact ends_pure ⟨h1, hle1, rfl⟩
  | cons r rs ih =>
    intro n s ts cmd h hst hn
    obtain ⟨n, rfl⟩ := Nat.exists_eq_add_of_lt hn
    rw [parseredirs]
    refine ends_peek (by decide) h fun s1 h1 hle1 => ?_
    have hst' : starts ['<', '>'] (redirToks (r :: rs) ++ ts) = true := by
      cases hr : r.op <;> simp [redirToks, starts, hr, Op.tok, Tok.lead]
    rw [hst']
    have h1' : Left line s1 (r.op.tok :: .word r.file :: (redirToks rs ++ ts)) := h1
    refine ends_gettoken h1' fun w s2 h2 hlt2 _ => ?_
    refine ends_gettoken h2 fun file s3 h3 hlt3 hfile => ?_
    obtain ⟨-, htext⟩ := hfile r.file rfl
    refine (ih _ s3 ts _ h3 hst (by omega)).imp ?_
    rintro cmd' s' ⟨h', hle', hcmd'⟩
    refine ⟨h', by omega, ?_⟩
    rw [hcmd', redirect_op, Tree.texts, Tree.map, htext]
    rfl

theorem parseback_complete (k : Nat) : ∀ n s ts cmd, Left line s (List.replicate k .amp ++ ts) →
    starts ['&'] ts = false → s.length < n →
    Ends Never (parseback line.length n cmd) s fun cmd' s' =>
      Left line s' ts ∧ s'.length ≤ s.length ∧ cmd'.texts line = (cmd.texts line).backs k := by
  induction k with
  | zero =>
    intro n s ts cmd h hst hn
    obtain ⟨n, rfl⟩ := Nat.exists_eq_add_of_lt hn
    rw [parseback]
    refine ends_peek (by decide) h fun s1 h1 hle1 => ?_
    have hst' : starts ['&'] (List.replicate 0 .amp ++ ts) = false := hst
    rw [hst']
    exact ends_pure ⟨h1, hle1, rfl⟩
  | succ k ih =>
    intro n s ts cmd h hst hn
    obtain ⟨n, rfl⟩ := Nat.exists_eq_add_of_lt hn
    rw [parseback]
    refine ends_peek (by decide) h fun s1 h1 hle1 => ?_
    have h1' : Left line s1 (.amp :: (List.replicate k .amp ++ ts)) := h1
    refine ends_gettoken h1' fun w s2 h2 hlt2 _ => ?_
    refine (ih _ s2 ts _ h2 hst (by omega)).imp ?_
    rintro cmd' s' ⟨h', hle', hcmd'⟩
    exact ⟨h', by omega, hcmd'⟩

theorem argToks_not_redir {as : List Arg} {ts : List Tok} (h : Follow .exec ts) :
    starts ['<', '>'] (argToks as ++ ts) = false := by
  cases as with
  | nil => exact h.not_starts (by decide)
  | cons a as => rfl

theorem parseargs_complete (as : List Arg) : ∀ n s ts argc ret ws rs,
    Left line s (argToks as ++ ts) → Follow .exec ts → s.length < n → argc + as.length < MAXARGS →
    ret.texts line = (Tree.execcmd ws).under rs →
    Ends Never (parseargs line.length n argc ret) s fun ret' s' =>
      Left line s' ts ∧ s'.length ≤ s.length ∧ ret'.texts line =
        (Tree.execcmd (ws ++ as.map Arg.word)).under (rs ++ as.flatMap Arg.redirs) := by
  induction as with
  | nil =>
    intro n s ts argc ret ws rs h hf hn _ hret
    obtain ⟨n, rfl⟩ := Nat.exists_eq_add_of_lt hn
    rw [parseargs]
    refine ends_peek (by decide) h fun s1 h1 hle1 => ?_
    rcases hf with rfl | hst
    · refine ends_gettoken_nil h1 fun w s2 h2 hle2 => ?_
      exact ends_pure ⟨h2, by omega, by simpa using hret⟩
    · have hst' : starts ['|', ')', '&', ';'] (argToks [] ++ ts) = true := by
        cases ts with
        | nil => exact hst
        | cons t ts => cases t <;> first | rfl | exact hst
      rw [hst']
      exact ends_pure ⟨h1, hle1, by simpa using hret⟩
  | cons a as ih =>
    intro n s ts argc ret ws rs h hf hn hmax hret
    obtain ⟨n, rfl⟩ := Nat.exists_eq_add_of_lt hn
    rw [parseargs]
    refine ends_peek (by decide) h fun s1 h1 hle1 => ?_
    have h1' : Left line s1 (.word a.word :: (redirToks a.redirs ++ (argToks as ++ ts))) := by
      simpa [argToks] using h1
    refine ends_gettoken h1' fun w s2 h2 hlt2 hw => ?_
    obtain ⟨-, htext⟩ := hw a.word rfl
    rw [length_cons] at hmax
    change Ends Never (if argc + 1 ≥ MAXARGS then throw (.panic "too many args") else _) s2 _
    rw [if_neg (by omega)]
    refine (parseredirs_complete a.redirs _ s2 _ _ h2 (argToks_not_redir hf) (by omega)).bind ?_
    rintro ret1 s3 ⟨h3, hle3, hret1⟩
    have htexts1 : ret1.texts line = (Tree.execcmd (ws ++ [a.word])).under (rs ++ a.redirs) := by
      rw [hret1, Tree.texts, Tree.map_addArg, htext, ← Tree.texts, hret, Tree.addArg_under,
        Tree.under_append]
    refine (ih _ s3 ts (argc + 1) ret1 (ws ++ [a.word]) (rs ++ a.redirs) h3 hf (by omega) (by omega)
      htexts1).imp ?_
    rintro ret' s' ⟨h', hle', htexts'⟩
    exact ⟨h', by omega, by simpa using htexts'⟩

/-- Where the tokens stand with what can follow them, the parser takes them for the tree. -/
def Found (line : List UInt8) (y : Sym) (ts : List Tok) (c : Tree (List UInt8)) : Prop :=
  ∀ n s us, Left line s (ts ++ us) → Follow y us → 4 * s.length + y.rank ≤ n →
    Ends Never (parse line.length y n) s fun cmd s' =>
      Left line s' us ∧ s'.length ≤ s.length ∧ cmd.texts line = c

section Found

variable {ts us' : List Tok} {c d : Tree (List UInt8)}

theorem parseline_last (k : Nat) (ih : Found line .pipe ts c) :
    Found line .line (ts ++ List.replicate k .amp) (c.backs k) := by
  intro n s us h hf hn
  obtain ⟨n, rfl⟩ : ∃ m, n = m + 1 := ⟨n - 1, by simp only [Sym.rank] at hn; omega⟩
  simp only [Sym.rank] at hn
  rw [parse, parseline]
  rw [append_assoc] at h
  have hf1 : Follow .pipe (List.replicate k .amp ++ us) := by
    cases k with
    | zero => exact hf.pipe
    | succ k => exact .inr rfl
  refine (ih n s _ h hf1 (by simp only [Sym.rank]; omega)).bind ?_
  rintro cmd s1 ⟨h1, hle1, hcmd⟩
  refine (parseback_complete k n s1 us cmd h1 (hf.not_starts (by decide)) (by omega)).bind ?_
  rintro cmd2 s2 ⟨h2, hle2, hcmd2⟩
  refine ends_peek (by decide) h2 fun s3 h3 hle3 => ?_
  rw [hf.not_starts (by decide)]
  exact ends_pure ⟨h3, by omega, by rw [hcmd2, hcmd]⟩

theorem parseline_more (k : Nat) (ih : Found line .pipe ts c) (ih' : Found line .line us' d) :
    Found line .line (ts ++ (List.replicate k .amp ++ .semi :: us')) (.listcmd (c.backs k) d) := by
  intro n s us h hf hn
  obtain ⟨n, rfl⟩ : ∃ m, n = m + 1 := ⟨n - 1, by simp only [Sym.rank] at hn; omega⟩
  simp only [Sym.rank] at hn
  rw [parse, parseline]
  have h' : Left line s (ts ++ (List.replicate k .amp ++ .semi :: (us' ++ us))) := by simpa using h
  have hf1 : Follow .pipe (List.replicate k .amp ++ .semi :: (us' ++ us)) := by
    cases k with
    | zero => exact .inr rfl
    | succ k => exact .inr rfl
  refine (ih n s _ h' hf1 (by simp only [Sym.rank]; omega)).bind ?_
  rintro cmd s1 ⟨h1, hle1, hcmd⟩
  refine (parseback_complete k n s1 _ cmd h1 rfl (by omega)).bind ?_
  rintro cmd2 s2 ⟨h2, hle2, hcmd2⟩
  refine ends_peek (by decide) h2 fun s3 h3 hle3 => ?_
  refine ends_gettoken h3 fun _ s4 h4 hlt4 _ => ?_
  refine (ih' n s4 us h4 hf (by simp only [Sym.rank]; omega)).bind ?_
  rintro right s5 ⟨h5, hle5, hright⟩
  refine ends_pure ⟨h5, by omega, ?_⟩
  rw [Tree.texts, Tree.map, ← Tree.texts, ← Tree.texts, hcmd2, hcmd, hright]

theorem parsepipe_last (ih : Found line .exec ts c) : Found line .pipe ts c := by
  intro n s us h hf hn
  obtain ⟨n, rfl⟩ : ∃ m, n = m + 1 := ⟨n - 1, by simp only [Sym.rank] at hn; omega⟩
  simp only [Sym.rank] at hn
  rw [parse, parsepipe]
  refine (ih n s us h hf.exec (by simp only [Sym.rank]; omega)).bind ?_
  rintro cmd s1 ⟨h1, hle1, hcmd⟩
  refine ends_peek (by decide) h1 fun s2 h2 hle2 => ?_
  rw [hf.not_starts (by decide)]
  exact ends_pure ⟨h2, by omega, hcmd⟩

theorem parsepipe_more (ih : Found line .exec ts c) (ih' : Found line .pipe us' d) :
    Found line .pipe (ts ++ .bar :: us') (.pipecmd c d) := by
  intro n s us h hf hn
  obtain ⟨n, rfl⟩ : ∃ m, n = m + 1 := ⟨n - 1, by simp only [Sym.rank] at hn; omega⟩
  simp only [Sym.rank] at hn
  rw [parse, parsepipe]
  have h' : Left line s (ts ++ .bar :: (us' ++ us)) := by simpa using h
  refine (ih n s _ h' (.inr rfl) (by simp only [Sym.rank]; omega)).bind ?_
  rintro cmd s1 ⟨h1, hle1, hcmd⟩
  refine ends_peek (by decide) h1 fun s2 h2 hle2 => ?_
  refine ends_gettoken h2 fun _ s3 h3 hlt3 _ => ?_
  refine (ih' n s3 us h3 hf (by simp only [Sym.rank]; omega)).bind ?_
  rintro right s4 ⟨h4, hle4, hright⟩
  refine ends_pure ⟨h4, by omega, ?_⟩
  rw [Tree.texts, Tree.map, ← Tree.texts, ← Tree.texts, hcmd, hright]

theorem parseexec_block (rs : List Redir) (ih : Found line .line ts c) :
    Found line .exec (.lpar :: (ts ++ .rpar :: redirToks rs)) (c.under rs) := by
  intro n s us h hf hn
  obtain ⟨n, rfl⟩ : ∃ m, n = m + 2 := ⟨n - 2, by simp only [Sym.rank] at hn; omega⟩
  simp only [Sym.rank] at hn
  rw [parse, parseexec]
  have h' : Left line s (.lpar :: (ts ++ .rpar :: (redirToks rs ++ us))) := by simpa using h
  refine ends_peek (by decide) h' fun s1 h1 hle1 => ?_
  change Ends Never (parseblock line.length (n + 1)) s1 _
  rw [parseblock]
  refine ends_peek (by decide) h1 fun s2 h2 hle2 => ?_
  refine ends_gettoken h2 fun _ s3 h3 hlt3 _ => ?_
  refine (ih n s3 _ h3 (.inr rfl) (by simp only [Sym.rank]; omega)).bind ?_
  rintro cmd s4 ⟨h4, hle4, hcmd⟩
  refine ends_peek (by decide) h4 fun s5 h5 hle5 => ?_
  refine ends_gettoken h5 fun _ s6 h6 hlt6 _ => ?_
  refine (parseredirs_complete rs n s6 us cmd h6 (hf.not_starts (by decide)) (by omega)).imp ?_
  rintro cmd' s' ⟨h', hle', hcmd'⟩
  exact ⟨h', by omega, by rw [hcmd', hcmd]⟩

theorem parseexec_simple (rs : List Redir) (as : List Arg) (hlen : as.length < MAXARGS) :
    Found line .exec (redirToks rs ++ argToks as)
      ((Tree.execcmd (as.map Arg.word)).under (rs ++ as.flatMap Arg.redirs)) := by
  intro n s us h hf hn
  obtain ⟨n, rfl⟩ : ∃ m, n = m + 1 := ⟨n - 1, by simp only [Sym.rank] at hn; omega⟩
  simp only [Sym.rank] at hn
  rw [parse, parseexec]
  rw [append_assoc] at h
  have hst : starts ['('] (redirToks rs ++ (argToks as ++ us)) = false := by
    cases rs with
    | cons r rs => cases hr : r.op <;> simp [redirToks, starts, hr, Op.tok, Tok.lead] <;> decide
    | nil =>
      cases as with
      | cons a as => rfl
      | nil => exact hf.not_starts (by decide)
  refine ends_peek (by decide) h fun s1 h1 hle1 => ?_
  rw [hst]
  refine (parseredirs_complete rs n s1 _ _ h1 (argToks_not_redir hf) (by omega)).bind ?_
  rintro ret s2 ⟨h2, hle2, hret⟩
  refine (parseargs_complete as n s2 us 0 ret [] rs h2 hf (by omega) (by omega) hret).imp ?_
  rintro cmd s' ⟨h', hle', hcmd⟩
  exact ⟨h', by omega, by simpa using hcmd⟩

end Found

theorem parse_complete {y : Sym} {ts : List Tok} {c : Tree (List UInt8)} (h : Derives y ts c) :
    Found line y ts c := by
  induction h with
  | line k _ ih => exact parseline_last k ih
  | lines k _ _ ih ih' => exact parseline_more k ih ih'
  | pipe _ ih => exact parsepipe_last ih
  | pipes _ _ ih ih' => exact parsepipe_more ih ih'
  | block rs _ ih => exact parseexec_block rs ih
  | simple rs as hlen => exact parseexec_simple rs as hlen

end Xv6.Sh
