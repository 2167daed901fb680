import Xv6.Sh.Lex

/-!
# The parser and its grammar

What the parser returns derives from the grammar, and it returns what derives from the grammar and
is followed as the grammar has it. Both are read off the code by the same rules: the first with
a panic as an end the run may come to, the second with none.
-/

open List

namespace Xv6.Sh

open Cmd

/-! ## The strings of a tree -/

section Tree

variable {ω ω' : Type}

def Tree.spans : Tree ω → List ω
  | .execcmd argv => argv
  | .redircmd cmd file _ _ => cmd.spans ++ [file]
  | .pipecmd left right => left.spans ++ right.spans
  | .listcmd left right => left.spans ++ right.spans
  | .backcmd cmd => cmd.spans

theorem Tree.map_addArg (f : ω → ω') (w : ω) (cmd : Tree ω) :
    (cmd.addArg w).map f = (cmd.map f).addArg (f w) := by
  induction cmd with
  | execcmd argv => simp [addArg, map]
  | redircmd cmd file mode fd ih => simp [addArg, map, ih]
  | _ => rfl

theorem Tree.mem_spans_addArg {w x : ω} {cmd : Tree ω} (h : x ∈ (cmd.addArg w).spans) :
    x ∈ cmd.spans ∨ x = w := by
  induction cmd with
  | execcmd argv => simpa [addArg, spans] using h
  | redircmd cmd file mode fd ih =>
    simp only [addArg, spans, mem_append] at h ⊢
    rcases h with h | h
    · exact (ih h).imp_left .inl
    · exact .inl (.inr h)
  | _ => exact .inl h

theorem Tree.map_congr {f g : ω → ω'} {cmd : Tree ω} (h : ∀ w ∈ cmd.spans, f w = g w) :
    cmd.map f = cmd.map g := by
  induction cmd with
  | execcmd argv => simpa [map, spans] using h
  | redircmd cmd file mode fd ih =>
    simp only [spans, mem_append, mem_singleton] at h
    rw [map, map, ih fun w hw => h w (.inl hw), h file (.inr rfl)]
  | pipecmd left right ihl ihr | listcmd left right ihl ihr =>
    simp only [spans, mem_append] at h
    rw [map, map, ihl fun w hw => h w (.inl hw), ihr fun w hw => h w (.inr hw)]
  | backcmd cmd ih => rw [map, map, ih h]

theorem Tree.addArg_under (ws : List (List UInt8)) (u : List UInt8) (rs : List Redir) :
    ((Tree.execcmd ws).under rs).addArg u = (Tree.execcmd (ws ++ [u])).under rs := by
  induction rs using List.reverseRecOn with
  | nil => rfl
  | append_singleton rs r ih =>
    simp only [under, foldl_append, foldl_cons, foldl_nil] at ih ⊢
    rw [addArg, ih]

theorem Tree.under_append (cmd : Tree (List UInt8)) (rs rs' : List Redir) :
    cmd.under (rs ++ rs') = (cmd.under rs).under rs' := foldl_append

end Tree

/-- The tree with the strings of the line that it spans. -/
def Tree.texts (line : List UInt8) (cmd : Tree Span) : Tree (List UInt8) := cmd.map (text line)

/-- Every string of the tree is a word of the line. -/
def Words (line : List UInt8) (cmd : Tree Span) : Prop := ∀ w ∈ cmd.spans, IsWord line w

theorem redirect_op (o : Op) (cmd : Tree Span) (w : Span) :
    redirect o.tok.code cmd w = .redircmd cmd w o.mode o.fd := by
  cases o <;> rfl

/-! ## Rules for the cursor -/

section

variable {line s : List UInt8} {ts : List Tok} {t : Tok} {E : Stop → Prop} {β : Type}
  {P : β → List UInt8 → Prop}

theorem ends_peek {toks : List Char} (htoks : toks.all (ch · ∈ symbols) = true) {f : Bool → Parser β}
    (h : Left line s ts)
    (hf : ∀ s', Left line s' ts → s'.length ≤ s.length → Ends E (f (starts toks ts)) s' P) :
    Ends E (peek toks >>= f) s P := by
  obtain ⟨s', hs', hl, hle⟩ := peek_spec htoks h
  exact ends_bind_of_ok hs' (hf s' hl hle)

theorem ends_gettoken {f : UInt8 × Span → Parser β} (h : Left line s (t :: ts))
    (hf : ∀ w s', Left line s' ts → s'.length < s.length →
      (∀ u, t = .word u → IsWord line w ∧ text line w = u) → Ends E (f (t.code, w)) s' P) :
    Ends E (gettoken line.length >>= f) s P := by
  obtain ⟨w, s', hs', hl, hlt, hw⟩ := gettoken_cons h
  exact ends_bind_of_ok hs' (hf w s' hl hlt hw)

theorem ends_gettoken_nil {f : UInt8 × Span → Parser β} (h : Left line s [])
    (hf : ∀ w s', Left line s' [] → s'.length ≤ s.length → Ends E (f (0, w)) s' P) :
    Ends E (gettoken line.length >>= f) s P := by
  obtain ⟨w, s', hs', hl, hle⟩ := gettoken_nil h
  exact ends_bind_of_ok hs' (hf w s' hl hle)

end

theorem Tok.eq_of_lead {t u : Tok} {b : UInt8} (ht : t.lead = some b) (hb : b ≠ ch '>')
    (hu : u.lead = some b) : u = t := by
  cases t with
  | word w => cases ht
  | gt | gtgt => exact absurd (Option.some.inj ht).symm hb
  | _ =>
    obtain rfl := Option.some.inj ht
    cases u <;> first
      | rfl
      | exact absurd hu (by simp only [lead]; decide)

theorem cons_of_starts {c : Char} (t : Tok) {ts : List Tok} (ht : t.lead = some (ch c))
    (hc : ch c ≠ ch '>') (h : starts [c] ts = true) : ∃ us, ts = t :: us := by
  cases ts with
  | nil => simp [starts] at h
  | cons u us =>
    cases hu : u.lead with
    | none => simp [starts, hu] at h
    | some b =>
      have hb : b = ch c := by simpa [starts, hu] using h
      exact ⟨us, by rw [Tok.eq_of_lead ht hc (hu.trans (congrArg some hb))]⟩

theorem op_of_starts {ts : List Tok} (h : starts ['<', '>'] ts = true) :
    ∃ o : Op, ∃ us, ts = o.tok :: us := by
  cases ts with
  | nil => simp [starts] at h
  | cons t us =>
    cases t with
    | lt => exact ⟨.lt, us, rfl⟩
    | gt => exact ⟨.gt, us, rfl⟩
    | gtgt => exact ⟨.gtgt, us, rfl⟩
    | _ => exact absurd h (by simp only [starts, List.head?_cons, Option.any_some, Tok.lead]; decide)

/-! ## What the parser returns -/

/-- Anything may stop the parser but that it runs for ever. -/
def Halts (e : Stop) : Prop := e ≠ .hang

variable {line : List UInt8}

theorem parseredirs_sound (n : Nat) : ∀ s ts cmd, Left line s ts → s.length < n →
    Ends Halts (parseredirs line.length n cmd) s fun cmd' s' =>
      ∃ rs ts', ts = redirToks rs ++ ts' ∧ Left line s' ts' ∧ s'.length ≤ s.length ∧
        cmd'.texts line = (cmd.texts line).under rs ∧ (Words line cmd → Words line cmd') := by
  induction n with
  | zero => intro s ts cmd _ h; omega
  | succ n ih =>
    intro s ts cmd h hn
    rw [parseredirs]
    refine ends_peek (by decide) h fun s1 h1 hle1 => ?_
    cases hst : starts ['<', '>'] ts with
    | false => exact ends_pure ⟨[], ts, rfl, h1, hle1, rfl, id⟩
    | true =>
      obtain ⟨o, us, rfl⟩ := op_of_starts hst
      refine ends_gettoken h1 fun w s2 h2 hlt2 _ => ?_
      cases us with
      | nil => exact ends_gettoken_nil h2 fun w' s3 _ _ => ends_throw (by simp [Halts])
      | cons u us =>
        refine ends_gettoken h2 fun file s3 h3 hlt3 hfile => ?_
        cases u with
        | word v =>
          obtain ⟨hword, htext⟩ := hfile v rfl
          refine (ih s3 us _ h3 (by omega)).imp ?_
          rintro cmd' s' ⟨rs, ts', rfl, h', hle', hcmd', hw'⟩
          refine ⟨⟨o, v⟩ :: rs, ts', rfl, h', by omega, ?_, ?_⟩
          · rw [hcmd', redirect_op, Tree.texts, Tree.map, htext]
            rfl
          · intro hw
            refine hw' ?_
            rw [redirect_op]
            intro x hx
            rcases mem_append.mp hx with hx | hx
            · exact hw x hx
            · rwa [mem_singleton.mp hx]
        | _ => exact ends_throw (by simp [Halts])

theorem parseback_sound (n : Nat) : ∀ s ts cmd, Left line s ts → s.length < n →
    Ends Halts (parseback line.length n cmd) s fun cmd' s' =>
      ∃ k ts', ts = List.replicate k .amp ++ ts' ∧ Left line s' ts' ∧ s'.length ≤ s.length ∧
        cmd'.texts line = (cmd.texts line).backs k ∧ (Words line cmd → Words line cmd') := by
  induction n with
  | zero => intro s ts cmd _ h; omega
  | succ n ih =>
    intro s ts cmd h hn
    rw [parseback]
    refine ends_peek (by decide) h fun s1 h1 hle1 => ?_
    cases hst : starts ['&'] ts with
    | false => exact ends_pure ⟨0, ts, rfl, h1, hle1, rfl, id⟩
    | true =>
      obtain ⟨us, rfl⟩ := cons_of_starts .amp rfl (by decide) hst
      refine ends_gettoken h1 fun w s2 h2 hlt2 _ => ?_
      refine (ih s2 us _ h2 (by omega)).imp ?_
      rintro cmd' s' ⟨k, ts', rfl, h', hle', hcmd', hw'⟩
      exact ⟨k + 1, ts', rfl, h', by omega, hcmd', fun hw => hw' hw⟩

theorem parseargs_sound (n : Nat) : ∀ s ts argc ret ws rs, Left line s ts → s.length < n →
    argc = ws.length → ws.length < MAXARGS → ret.texts line = (Tree.execcmd ws).under rs →
    Words line ret → Ends Halts (parseargs line.length n argc ret) s fun ret' s' =>
      ∃ as ts', ts = argToks as ++ ts' ∧ Left line s' ts' ∧ s'.length ≤ s.length ∧
        ws.length + as.length < MAXARGS ∧ Words line ret' ∧ ret'.texts line =
          (Tree.execcmd (ws ++ as.map Arg.word)).under (rs ++ as.flatMap Arg.redirs) := by
  induction n with
  | zero => intro s ts argc ret ws rs _ h; omega
  | succ n ih =>
    intro s ts argc ret ws rs h hn hargc hws hret hwords
    have hdone : ∀ s', Left line s' ts → s'.length ≤ s.length → Ends Halts (pure ret : Parser _) s'
        fun ret' s' => ∃ as ts', ts = argToks as ++ ts' ∧ Left line s' ts' ∧ s'.length ≤ s.length ∧
          ws.length + as.length < MAXARGS ∧ Words line ret' ∧ ret'.texts line =
            (Tree.execcmd (ws ++ as.map Arg.word)).under (rs ++ as.flatMap Arg.redirs) :=
      fun s' h' hle' => ends_pure ⟨[], ts, rfl, h', hle', hws, hwords, by simpa using hret⟩
    rw [parseargs]
    refine ends_peek (by decide) h fun s1 h1 hle1 => ?_
    cases starts ['|', ')', '&', ';'] ts with
    | true => exact hdone s1 h1 hle1
    | false =>
      cases ts with
      | nil => exact ends_gettoken_nil h1 fun w s2 h2 hle2 => hdone s2 h2 (by omega)
      | cons t us =>
        refine ends_gettoken h1 fun w s2 h2 hlt2 hw => ?_
        cases t with
        | word u =>
          obtain ⟨hword, htext⟩ := hw u rfl
          change Ends Halts (if argc + 1 ≥ MAXARGS then throw (.panic "too many args") else _) s2 _
          split
          · exact ends_throw (by simp [Halts])
          next hmax =>
            refine (parseredirs_sound n s2 us _ h2 (by omega)).bind ?_
            rintro ret1 s3 ⟨rs1, ts1, rfl, h3, hle3, hret1, hw1⟩
            have hwords1 : Words line ret1 := hw1 fun x hx => by
              rcases Tree.mem_spans_addArg hx with hx | rfl
              · exact hwords x hx
              · exact hword
            have htexts1 : ret1.texts line = (Tree.execcmd (ws ++ [u])).under (rs ++ rs1) := by
              rw [hret1, Tree.texts, Tree.map_addArg, htext, ← Tree.texts, hret, Tree.addArg_under,
                Tree.under_append]
            refine (ih s3 ts1 (argc + 1) ret1 (ws ++ [u]) (rs ++ rs1) h3 (by omega) (by simp [hargc])
              (by simp; omega) htexts1 hwords1).imp ?_
            rintro ret' s' ⟨as, ts', rfl, h', hle', hlen, hwords', htexts'⟩
            refine ⟨⟨u, rs1⟩ :: as, ts', ?_, h', by omega, ?_, hwords', ?_⟩
            · simp [argToks]
            · simp at hlen ⊢
              omega
            · simpa using htexts'
        | _ => exact ends_throw (by simp [Halts])

/-- The function of the parser for a symbol of the grammar. -/
def parse (es : Nat) : Sym → Nat → Parser (Tree Span)
  | .line => parseline es
  | .pipe => parsepipe es
  | .exec => parseexec es

/-- How far the symbol is above `parseblock` in a chain of calls. -/
def Sym.rank : Sym → Nat
  | .line => 4
  | .pipe => 3
  | .exec => 2

/-- From `s` with the tokens `ts`, the parser took a first part of them for the tree of its
derivation. -/
def Parsed (line : List UInt8) (y : Sym) (s : List UInt8) (ts : List Tok) (cmd : Tree Span)
    (s' : List UInt8) : Prop :=
  ∃ ts1 ts2, ts = ts1 ++ ts2 ∧ Derives y ts1 (cmd.texts line) ∧ Left line s' ts2 ∧
    s'.length ≤ s.length ∧ Words line cmd

def Sound (line : List UInt8) (y : Sym) (n : Nat) : Prop :=
  ∀ s ts, Left line s ts → 4 * s.length + y.rank ≤ n →
    Ends Halts (parse line.length y n) s (Parsed line y s ts)

theorem parseline_sound {n : Nat} (hpipe : Sound line .pipe n) (hline : Sound line .line n) :
    Sound line .line (n + 1) := by
  intro s ts h hn
  simp only [Sym.rank] at hn
  rw [parse, parseline]
  refine (hpipe s ts h (by simp only [Sym.rank]; omega)).bind ?_
  rintro cmd s1 ⟨ts1, ts2, rfl, hd, h1, hle1, hw1⟩
  refine (parseback_sound n s1 ts2 cmd h1 (by omega)).bind ?_
  rintro cmd2 s2 ⟨k, ts3, rfl, h2, hle2, hcmd2, hw2⟩
  refine ends_peek (by decide) h2 fun s3 h3 hle3 => ?_
  cases hst : starts [';'] ts3 with
  | false =>
    refine ends_pure ⟨ts1 ++ List.replicate k .amp, ts3, by simp, ?_, h3, by omega, hw2 hw1⟩
    rw [hcmd2]
    exact .line k hd
  | true =>
    obtain ⟨us, rfl⟩ := cons_of_starts .semi rfl (by decide) hst
    refine ends_gettoken h3 fun _ s4 h4 hlt4 _ => ?_
    refine (hline s4 us h4 (by simp only [Sym.rank]; omega)).bind ?_
    rintro right s5 ⟨us1, us2, rfl, hd5, h5, hle5, hw5⟩
    refine ends_pure ⟨ts1 ++ (List.replicate k .amp ++ .semi :: us1), us2, by simp, ?_, h5, by omega,
      fun w hw => (mem_append.mp hw).elim (hw2 hw1 w) (hw5 w)⟩
    rw [Tree.texts, Tree.map, ← Tree.texts, ← Tree.texts, hcmd2]
    exact .lines k hd hd5

theorem parsepipe_sound {n : Nat} (hexec : Sound line .exec n) (hpipe : Sound line .pipe n) :
    Sound line .pipe (n + 1) := by
  intro s ts h hn
  simp only [Sym.rank] at hn
  rw [parse, parsepipe]
  refine (hexec s ts h (by simp only [Sym.rank]; omega)).bind ?_
  rintro cmd s1 ⟨ts1, ts2, rfl, hd, h1, hle1, hw1⟩
  refine ends_peek (by decide) h1 fun s2 h2 hle2 => ?_
  cases hst : starts ['|'] ts2 with
  | false => exact ends_pure ⟨ts1, ts2, rfl, .pipe hd, h2, by omega, hw1⟩
  | true =>
    obtain ⟨us, rfl⟩ := cons_of_starts .bar rfl (by decide) hst
    refine ends_gettoken h2 fun _ s3 h3 hlt3 _ => ?_
    refine (hpipe s3 us h3 (by simp only [Sym.rank]; omega)).bind ?_
    rintro right s4 ⟨us1, us2, rfl, hd4, h4, hle4, hw4⟩
    exact ends_pure ⟨ts1 ++ .bar :: us1, us2, by simp, .pipes hd hd4, h4, by omega,
      fun w hw => (mem_append.mp hw).elim (hw1 w) (hw4 w)⟩

theorem parseblock_sound {n : Nat} {s : List UInt8} {ts : List Tok} (hline : Sound line .line n)
    (h : Left line s (.lpar :: ts)) (hn : 4 * s.length ≤ n) :
    Ends Halts (parseblock line.length (n + 1)) s (Parsed line .exec s (.lpar :: ts)) := by
  rw [parseblock]
  refine ends_peek (by decide) h fun s1 h1 hle1 => ?_
  refine ends_gettoken h1 fun _ s2 h2 hlt2 _ => ?_
  refine (hline s2 ts h2 (by simp only [Sym.rank]; omega)).bind ?_
  rintro cmd s3 ⟨ts1, ts2, rfl, hd, h3, hle3, hw3⟩
  refine ends_peek (by decide) h3 fun s4 h4 hle4 => ?_
  cases hst : starts [')'] ts2 with
  | false => exact ends_throw (by simp [Halts])
  | true =>
    obtain ⟨us, rfl⟩ := cons_of_starts .rpar rfl (by decide) hst
    refine ends_gettoken h4 fun _ s5 h5 hlt5 _ => ?_
    refine (parseredirs_sound n s5 us cmd h5 (by omega)).imp ?_
    rintro cmd' s' ⟨rs, ts', rfl, h', hle', hcmd', hw'⟩
    refine ⟨.lpar :: (ts1 ++ .rpar :: redirToks rs), ts', by simp, ?_, h', by omega, hw' hw3⟩
    rw [hcmd']
    exact .block rs hd

theorem parseexec_sound {n : Nat}
    (hblock : ∀ s ts, Left line s (.lpar :: ts) → 4 * s.length + 1 ≤ n →
      Ends Halts (parseblock line.length n) s (Parsed line .exec s (.lpar :: ts))) :
    Sound line .exec (n + 1) := by
  intro s ts h hn
  simp only [Sym.rank] at hn
  rw [parse, parseexec]
  refine ends_peek (by decide) h fun s1 h1 hle1 => ?_
  cases hst : starts ['('] ts with
  | true =>
    obtain ⟨us, rfl⟩ := cons_of_starts .lpar rfl (by decide) hst
    refine (hblock s1 us h1 (by omega)).imp ?_
    rintro cmd s' ⟨ts1, ts2, hts, hd, h', hle', hw'⟩
    exact ⟨ts1, ts2, hts, hd, h', by omega, hw'⟩
  | false =>
    refine (parseredirs_sound n s1 ts _ h1 (by omega)).bind ?_
    rintro ret s2 ⟨rs, ts2, rfl, h2, hle2, hret, hw2⟩
    refine (parseargs_sound n s2 ts2 0 ret [] rs h2 (by omega) rfl (by decide) hret
      (hw2 (by simp [Words, Tree.spans]))).imp ?_
    rintro cmd s' ⟨as, ts', rfl, h', hle', hlen, hw', htexts⟩
    refine ⟨redirToks rs ++ argToks as, ts', by simp, ?_, h', by omega, hw'⟩
    rw [htexts]
    exact .simple rs as (by simpa using hlen)

/-- Every function of the parser halts within its turns, and what it returns derives from its
symbol. -/
theorem parse_sound (n : Nat) : (∀ y, Sound line y n) ∧
    ∀ s ts, Left line s (.lpar :: ts) → 4 * s.length + 1 ≤ n →
      Ends Halts (parseblock line.length n) s (Parsed line .exec s (.lpar :: ts)) := by
  induction n with
  | zero =>
    refine ⟨fun y s ts _ hn => ?_, fun s ts _ hn => by omega⟩
    cases y <;> simp [Sym.rank] at hn
  | succ n ih =>
    obtain ⟨hsound, hblock⟩ := ih
    refine ⟨fun y => ?_, fun s ts h hn => parseblock_sound (hsound .line) h (by omega)⟩
    cases y with
    | line => exact parseline_sound (hsound .pipe) (hsound .line)
    | pipe => exact parsepipe_sound (hsound .exec) (hsound .pipe)
    | exec => exact parseexec_sound hblock

end Xv6.Sh
