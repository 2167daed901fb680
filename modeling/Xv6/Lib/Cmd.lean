import Mathlib

/-!
# Commands

A command reads and changes a state, and may stop the machine. These are the rules that take a
finished run of a command apart, and those that put one together.
-/

namespace Xv6

/-- A command over the state `σ` that stops with an `ε`. -/
abbrev Cmd (ε σ α : Type) := StateT σ (Except ε) α

namespace Cmd

variable {ε σ α β : Type}

/-! ## Taking a run apart -/

theorem bind_ok {x : Cmd ε σ α} {f : α → Cmd ε σ β} {s : σ} {r : β × σ}
    (h : (x >>= f) s = .ok r) : ∃ a s1, x s = .ok (a, s1) ∧ f a s1 = .ok r := by
  cases hx : x s with
  | error e => simp [bind, StateT.bind, Except.bind, hx] at h
  | ok q =>
    refine ⟨q.1, q.2, rfl, ?_⟩
    simpa [bind, StateT.bind, Except.bind, hx] using h

theorem pure_ok {a : α} {s : σ} {r : α × σ} (h : (pure a : Cmd ε σ α) s = .ok r) : r = (a, s) :=
  (Except.ok.inj h).symm

theorem pure_pair_ok {a a' : α} {b b' : β} {s s' : σ}
    (h : (pure (a, b) : Cmd ε σ (α × β)) s = .ok ((a', b'), s')) : a' = a ∧ b' = b ∧ s' = s := by
  cases h
  exact ⟨rfl, rfl, rfl⟩

theorem throw_ok {e : ε} {s : σ} {r : α × σ} (h : (throw e : Cmd ε σ α) s = .ok r) : False := by
  cases h

theorem map_ok {f : α → β} {x : Except ε α} {b : β} (h : x.map f = .ok b) :
    ∃ a, x = .ok a ∧ f a = b := by
  cases x with
  | error e => cases h
  | ok a => exact ⟨a, rfl, Except.ok.inj h⟩

theorem snd_some {x : Except ε (α × σ)} {s : σ} (h : x.toOption.map Prod.snd = some s) :
    ∃ a, x = .ok (a, s) := by
  cases x with
  | error e => cases h
  | ok r => exact ⟨r.1, congrArg (fun s => Except.ok (r.1, s)) (Option.some.inj h)⟩

/-! ## Putting a run together -/

theorem bind_of_ok {x : Cmd ε σ α} {f : α → Cmd ε σ β} {s s1 : σ} {a : α} (h : x s = .ok (a, s1)) :
    (x >>= f) s = f a s1 := by
  simp [bind, StateT.bind, Except.bind, h]

theorem bind_of_error {x : Cmd ε σ α} {f : α → Cmd ε σ β} {s : σ} {e : ε} (h : x s = .error e) :
    (x >>= f) s = .error e := by
  simp [bind, StateT.bind, Except.bind, h]

@[simp] theorem pure_apply (a : α) (s : σ) : (pure a : Cmd ε σ α) s = .ok (a, s) := rfl

/-! ## What can stop a run -/

/-- What has stopped the run. -/
def stopped (x : Except ε α) : Option ε :=
  match x with
  | .ok _ => none
  | .error e => some e

theorem error_of_stopped {x : Except ε α} {e : ε} (h : stopped x = some e) : x = .error e := by
  cases x with
  | ok a => cases h
  | error e' => exact congrArg Except.error (Option.some.inj h)

/-- Whatever stops `x` satisfies `E`. -/
def Throws (E : ε → Prop) (x : Cmd ε σ α) : Prop := ∀ s e, x s = .error e → E e

section Throws

variable {E : ε → Prop} {x : Cmd ε σ α}

theorem throws_pure (a : α) : Throws E (pure a : Cmd ε σ α) := fun _ _ h => by cases h

theorem throws_throw {e : ε} (h : E e) : Throws E (throw e : Cmd ε σ α) := by
  rintro s e' he
  cases he
  exact h

theorem throws_bind {f : α → Cmd ε σ β} (hx : Throws E x) (hf : ∀ a, Throws E (f a)) :
    Throws E (x >>= f) := by
  intro s e h
  cases hs : x s with
  | error e' =>
    rw [bind_of_error hs] at h
    cases h
    exact hx s _ hs
  | ok r =>
    rw [bind_of_ok hs] at h
    exact hf r.1 r.2 e h

theorem throws_ite {c : Prop} [Decidable c] {y : Cmd ε σ α} (hx : c → Throws E x)
    (hy : ¬ c → Throws E y) : Throws E (if c then x else y) := by
  split
  · next h => exact hx h
  · next h => exact hy h

end Throws

/-! ## Where a run ends -/

/-- From `s`, the command `x` ends in a result and a state that meet `P`, or stops with an `E`. -/
def Ends (E : ε → Prop) (x : Cmd ε σ α) (s : σ) (P : α → σ → Prop) : Prop :=
  match x s with
  | .ok (a, s') => P a s'
  | .error e => E e

section Ends

variable {E : ε → Prop} {x : Cmd ε σ α} {s : σ} {P Q : α → σ → Prop}

theorem ends_of_ok {a : α} {s' : σ} (h : x s = .ok (a, s')) (hP : P a s') : Ends E x s P := by
  simpa [Ends, h] using hP

theorem ends_pure {a : α} (h : P a s) : Ends E (pure a) s P := h

theorem ends_throw {e : ε} (h : E e) : Ends E (throw e) s P := h

theorem Ends.bind {f : α → Cmd ε σ β} {R : β → σ → Prop} (hx : Ends E x s P)
    (hf : ∀ a s', P a s' → Ends E (f a) s' R) : Ends E (x >>= f) s R := by
  cases hs : x s with
  | error e =>
    rw [Ends, hs] at hx
    rw [Ends, bind_of_error hs]
    exact hx
  | ok r =>
    rw [Ends, hs] at hx
    rw [Ends, bind_of_ok hs]
    exact hf r.1 r.2 hx

theorem ends_bind_of_ok {f : α → Cmd ε σ β} {R : β → σ → Prop} {a : α} {s' : σ}
    (hx : x s = .ok (a, s')) (hf : Ends E (f a) s' R) : Ends E (x >>= f) s R := by
  rw [Ends, bind_of_ok hx]
  exact hf

theorem Ends.imp (h : Ends E x s P) (hPQ : ∀ a s', P a s' → Q a s') : Ends E x s Q := by
  cases hs : x s with
  | error e => simpa [Ends, hs] using h
  | ok r => simpa [Ends, hs] using hPQ _ _ (by simpa [Ends, hs] using h)

/-- A command that nothing stops has a result. -/
theorem Ends.ok (h : Ends (fun _ => False) x s P) : ∃ a s', x s = .ok (a, s') ∧ P a s' := by
  cases hs : x s with
  | error e => simp [Ends, hs] at h
  | ok r => exact ⟨r.1, r.2, rfl, by simpa [Ends, hs] using h⟩

end Ends

/-! ## What a run keeps -/

/-- A run of `x` to its end leaves `f` of the state as it was. -/
def Keeps (f : σ → β) (x : Cmd ε σ α) : Prop := ∀ s a s', x s = .ok (a, s') → f s' = f s

section Keeps

variable {γ : Type} {f : σ → γ} {x : Cmd ε σ α}

theorem keeps_pure (a : α) : Keeps f (pure a : Cmd ε σ α) := by
  rintro s b s' h
  cases h
  rfl

theorem keeps_throw (e : ε) : Keeps f (throw e : Cmd ε σ α) := by
  rintro s b s' h
  cases h

theorem keeps_bind {g : α → Cmd ε σ β} (hx : Keeps f x) (hg : ∀ a, Keeps f (g a)) : Keeps f (x >>= g) := by
  intro s b s' h
  obtain ⟨a, s1, h1, h2⟩ := bind_ok h
  rw [hg a s1 b s' h2, hx s a s1 h1]

theorem keeps_ite {c : Prop} [Decidable c] {y : Cmd ε σ α} (hx : Keeps f x) (hy : Keeps f y) :
    Keeps f (if c then x else y) := by
  split
  · exact hx
  · exact hy

end Keeps

/-! ## A command on a part of the state -/

section Zoom

variable {τ : Type} (part : τ → σ) (put : τ → σ → τ)

/-- Run `x` on one part of a larger state. -/
def zoom (x : Cmd ε σ α) : Cmd ε τ α := fun t =>
  match x (part t) with
  | .ok (a, s) => .ok (a, put t s)
  | .error e => .error e

variable {part put}

theorem zoom_ok {x : Cmd ε σ α} {t : τ} {r : α × τ} (h : zoom part put x t = .ok r) :
    ∃ s, x (part t) = .ok (r.1, s) ∧ r.2 = put t s := by
  unfold zoom at h
  split at h
  · next a s hx =>
    obtain rfl := (Except.ok.inj h).symm
    exact ⟨s, hx, rfl⟩
  · cases h

theorem throws_zoom {E : ε → Prop} {x : Cmd ε σ α} (h : Throws E x) : Throws E (zoom part put x) := by
  intro t e he
  unfold zoom at he
  split at he
  · cases he
  · next e' hx =>
    cases he
    exact h _ _ hx

theorem zoom_of_ok {x : Cmd ε σ α} {t : τ} {a : α} {s : σ} (h : x (part t) = .ok (a, s)) :
    zoom part put x t = .ok (a, put t s) := by
  simp [zoom, h]

end Zoom

end Cmd

end Xv6
