import Mathlib

/-!
# Runs of a labelled transition system

`step s a s'` is one step from `s` to `s'` with label `a`. A run keeps every state it
left and the label it left by, so a statement can range over the states of one run.
-/

open List

namespace Xv6.Run

variable {σ α : Type}

/-- A run from the first state to the last. The trace holds the state before each step. -/
inductive Path (step : σ → α → σ → Prop) : σ → List (σ × α) → σ → Prop
  | nil (s : σ) : Path step s [] s
  | snoc {s s' s'' : σ} {tr : List (σ × α)} {a : α} :
      Path step s tr s' → step s' a s'' → Path step s (tr ++ [(s', a)]) s''

/-- Every state of the run, the last one included, satisfies `P`. -/
def Along (P : σ → Prop) (tr : List (σ × α)) (s : σ) : Prop := (∀ x ∈ tr, P x.1) ∧ P s

/-- Every step of the run meets `ok`, which sees the state before the step and the label. -/
def Meets (ok : σ → α → Prop) (tr : List (σ × α)) : Prop := ∀ x ∈ tr, ok x.1 x.2

theorem meets_snoc (ok : σ → α → Prop) (tr : List (σ × α)) (s : σ) (a : α) :
    Meets ok (tr ++ [(s, a)]) ↔ Meets ok tr ∧ ok s a := by
  simp only [Meets, mem_append, mem_singleton, or_imp, forall_and, forall_eq]

theorem along_snoc (P : σ → Prop) (tr : List (σ × α)) (s s' : σ) (a : α) :
    Along P (tr ++ [(s, a)]) s' ↔ Along P tr s ∧ P s' := by
  simp only [Along, mem_append, mem_singleton, or_imp, forall_and, forall_eq]

theorem meets_append (ok : σ → α → Prop) (tr tr' : List (σ × α)) :
    Meets ok (tr ++ tr') ↔ Meets ok tr ∧ Meets ok tr' := by
  simp only [Meets, mem_append, or_imp, forall_and]

variable {step : σ → α → σ → Prop} {inv P : σ → Prop} {ok : σ → α → Prop}

/-- A guard that the labels meet in every state. -/
theorem meets_of_labels {tr : List (σ × α)} {as : List α} (htr : tr.map Prod.snd = as)
    (h : ∀ a ∈ as, ∀ s, ok s a) : Meets ok tr := by
  intro x hx
  exact h x.2 (htr ▸ mem_map_of_mem hx) x.1

theorem Path.trans {s s' s'' : σ} {tr tr' : List (σ × α)} (h : Path step s tr s')
    (h' : Path step s' tr' s'') : Path step s (tr ++ tr') s'' := by
  induction h' with
  | nil => simpa using h
  | snoc _ hs ih => simpa using Path.snoc ih hs

/-- A guarded run is a run of the guarded system. -/
theorem Path.guard {s s' : σ} {tr : List (σ × α)} (h : Path step s tr s') (hok : Meets ok tr) :
    Path (fun s a s' => ok s a ∧ step s a s') s tr s' := by
  induction h with
  | nil => exact .nil _
  | snoc _ hs ih =>
    rw [meets_snoc] at hok
    exact .snoc (ih hok.1) ⟨hok.2, hs⟩

/-- The invariant rule: what the guarded steps keep holds along every guarded run. -/
theorem along_of_step (hstep : ∀ s a s', inv s → ok s a → step s a s' → inv s')
    {s s' : σ} {tr : List (σ × α)} (hrun : Path step s tr s') (h0 : inv s) (hok : Meets ok tr) :
    Along inv tr s' := by
  induction hrun with
  | nil => exact ⟨by simp, h0⟩
  | snoc _ hs ih =>
    rw [meets_snoc] at hok
    have hprev := ih hok.1
    exact (along_snoc _ _ _ _ _).mpr ⟨hprev, hstep _ _ _ hprev.2 hok.2 hs⟩

/-- The invariant rule for all steps. -/
theorem along_of_all_steps (hstep : ∀ s a s', inv s → step s a s' → inv s') {s s' : σ}
    {tr : List (σ × α)} (hrun : Path step s tr s') (h0 : inv s) : Along inv tr s' :=
  along_of_step (fun s a s' h (_ : True) hs => hstep s a s' h hs) hrun h0 fun _ _ => trivial

theorem Along.mono (h : ∀ s, inv s → P s) {tr : List (σ × α)} {s : σ} (ha : Along inv tr s) :
    Along P tr s :=
  ⟨fun x hx => h _ (ha.1 x hx), h _ ha.2⟩

/-- When a step outside the guard breaks `P` at once, the guarded runs are exactly the runs
along which `P` holds. -/
theorem along_iff_meets (hinv : ∀ s, inv s → P s)
    (hstep : ∀ s a s', inv s → ok s a → step s a s' → inv s')
    (hbad : ∀ s a s', inv s → ¬ ok s a → step s a s' → ¬ P s')
    {s s' : σ} {tr : List (σ × α)} (hrun : Path step s tr s') (h0 : inv s) :
    Along P tr s' ↔ Meets ok tr := by
  constructor
  · intro ha
    induction hrun with
    | nil => simp [Meets]
    | snoc hp hs ih =>
      rw [along_snoc] at ha
      have hok := ih ha.1
      rw [meets_snoc]
      refine ⟨hok, ?_⟩
      by_contra hno
      exact hbad _ _ _ (along_of_step hstep hp h0 hok).2 hno hs ha.2
  · intro hok
    exact (along_of_step hstep hrun h0 hok).mono hinv

/-! ## Systems whose steps are a function -/

/-- The step relation of a partial step function. -/
def Next (next : σ → α → Option σ) (s : σ) (a : α) (s' : σ) : Prop := next s a = some s'

/-- The state after the labels, if every one of them can be taken. -/
def follow (next : σ → α → Option σ) : σ → List α → Option σ
  | s, [] => some s
  | s, a :: as => (next s a).bind fun s' => follow next s' as

theorem follow_append (next : σ → α → Option σ) (s : σ) (as bs : List α) :
    follow next s (as ++ bs) = (follow next s as).bind fun s' => follow next s' bs := by
  induction as generalizing s with
  | nil => rfl
  | cons a as ih =>
    simp only [cons_append, follow]
    cases next s a with
    | none => rfl
    | some s1 => exact ih s1

theorem Path.cons {s s' s'' : σ} {tr : List (σ × α)} {a : α} (hs : step s a s')
    (hp : Path step s' tr s'') : Path step s ((s, a) :: tr) s'' := by
  induction hp with
  | nil => exact .snoc (.nil _) hs
  | snoc _ hs' ih => exact .snoc ih hs'

/-- The states that the labels leave, each with its label. -/
def visited (next : σ → α → Option σ) : σ → List α → List (σ × α)
  | _, [] => []
  | s, a :: as => (s, a) :: ((next s a).elim [] fun s' => visited next s' as)

theorem path_visited {next : σ → α → Option σ} {s s' : σ} {as : List α}
    (h : follow next s as = some s') :
    Path (Next next) s (visited next s as) s' ∧ (visited next s as).map Prod.snd = as := by
  induction as generalizing s with
  | nil => cases h; exact ⟨.nil _, rfl⟩
  | cons a as ih =>
    obtain ⟨s1, hs, hrest⟩ := Option.bind_eq_some_iff.mp h
    obtain ⟨hp, htr⟩ := ih hrest
    rw [visited, hs, Option.elim_some]
    exact ⟨.cons hs hp, by rw [map_cons, htr]⟩

theorem path_of_follow {next : σ → α → Option σ} {s s' : σ} {as : List α}
    (h : follow next s as = some s') : ∃ tr, Path (Next next) s tr s' ∧ tr.map Prod.snd = as :=
  ⟨_, path_visited h⟩

/-! ## Systems with outputs -/

section Outputs

variable {τ β : Type}

/-- The last state and the outputs, if every request can be served. -/
def serve (step : σ → α → Option (σ × β)) : σ → List α → Option (σ × List β)
  | s, [] => some (s, [])
  | s, a :: as => (step s a).bind fun x => (serve step x.1 as).map fun y => (y.1, x.2 :: y.2)

/-- A simulation: when related states take related steps with the same output, the two systems give the
same outputs on every sequence of requests. -/
theorem serve_sim {stepC : σ → α → Option (σ × β)} {stepA : τ → α → Option (τ × β)} {R : σ → τ → Prop}
    (hstep : ∀ s t a s' b, R s t → stepC s a = some (s', b) → ∃ t', stepA t a = some (t', b) ∧ R s' t')
    {s s' : σ} {t : τ} {as : List α} {bs : List β} (h0 : R s t) (h : serve stepC s as = some (s', bs)) :
    ∃ t', serve stepA t as = some (t', bs) ∧ R s' t' := by
  induction as generalizing s t bs with
  | nil =>
    obtain ⟨rfl, rfl⟩ := Prod.mk.inj (Option.some.inj h)
    exact ⟨t, rfl, h0⟩
  | cons a as ih =>
    obtain ⟨⟨s1, b⟩, hs, hrest⟩ := Option.bind_eq_some_iff.mp h
    obtain ⟨⟨s2, bs'⟩, hserve, heq⟩ := Option.map_eq_some_iff.mp hrest
    obtain ⟨rfl, rfl⟩ := Prod.mk.inj heq
    obtain ⟨t1, hA, h1⟩ := hstep s t a s1 b h0 hs
    obtain ⟨t2, hserveA, h2⟩ := ih h1 hserve
    refine ⟨t2, ?_, h2⟩
    simp only [serve, hA, Option.bind_some, hserveA, Option.map_some]

end Outputs

end Xv6.Run
