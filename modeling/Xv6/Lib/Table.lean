import Mathlib

/-!
# Tables

A table has `n` cells, and a cell is empty or holds a key with a value. When no key is there twice, the
table is a map. Filling an empty cell, or one new cell at the end, adds a key, and clearing a cell
takes it away.
-/

open Function

namespace Xv6.Table

variable {κ V : Type} [DecidableEq κ] {c : Nat → Option (κ × V)} {n i j v : Nat} {k k' : κ} {x : V}

/-- The cell `j` holds the key `k`. -/
def Holds (c : Nat → Option (κ × V)) (k : κ) (j : Nat) : Prop := (c j).map Prod.fst = some k

instance (c : Nat → Option (κ × V)) (k : κ) (j : Nat) : Decidable (Holds c k j) := inferInstanceAs (Decidable (_ = _))

/-- The first cell with the key. -/
def index (c : Nat → Option (κ × V)) (n : Nat) (k : κ) : Option Nat := (List.range n).find? fun j => Holds c k j

/-- The value of the key. -/
def get (c : Nat → Option (κ × V)) (n : Nat) (k : κ) : Option V := (index c n k).bind fun j => (c j).map Prod.snd

/-- The first empty cell, or else the one after the last. -/
def vacancy (c : Nat → Option (κ × V)) (n : Nat) : Nat := ((List.range n).find? fun j => (c j).isNone).getD n

/-- No key is there twice. -/
def Unique (c : Nat → Option (κ × V)) (n : Nat) : Prop :=
  ∀ i < n, ∀ j < n, ∀ k, Holds c k i → Holds c k j → i = j

theorem holds_iff : Holds c k j ↔ ∃ x, c j = some (k, x) := by
  unfold Holds
  cases c j with
  | none => simp
  | some p => simp [Prod.ext_iff]

omit [DecidableEq κ] in
theorem vacancy_le (c : Nat → Option (κ × V)) (n : Nat) : vacancy c n ≤ n := by
  unfold vacancy
  cases h : (List.range n).find? fun j => (c j).isNone with
  | none => exact Nat.le_refl _
  | some j => exact Nat.le_of_lt (List.mem_range.mp (List.mem_of_find?_eq_some h))

omit [DecidableEq κ] in
theorem empty_of_vacancy (h : vacancy c n < n) : c (vacancy c n) = none := by
  unfold vacancy at *
  cases hf : (List.range n).find? fun j => (c j).isNone with
  | none =>
    rw [hf] at h
    exact absurd h (Nat.lt_irrefl _)
  | some j =>
    have := List.find?_some hf
    rw [Option.isNone_iff_eq_none] at this
    exact this

theorem index_eq_none : index c n k = none ↔ ∀ j < n, ¬ Holds c k j := by
  simp [index]

theorem index_mem (h : index c n k = some j) : j < n ∧ Holds c k j :=
  ⟨List.mem_range.mp (List.mem_of_find?_eq_some h), by simpa using List.find?_some h⟩

theorem Unique.index_eq (hu : Unique c n) (hj : j < n) (hk : Holds c k j) : index c n k = some j := by
  cases h : index c n k with
  | none => exact absurd hk (index_eq_none.mp h j hj)
  | some i =>
    obtain ⟨hi, hki⟩ := index_mem h
    rw [hu i hi j hj k hki hk]

theorem get_eq_none : get c n k = none ↔ index c n k = none := by
  unfold get
  cases h : index c n k with
  | none => simp
  | some j =>
    obtain ⟨x, hx⟩ := holds_iff.mp (index_mem h).2
    simp [hx]

theorem Unique.get_eq_some (hu : Unique c n) : get c n k = some x ↔ ∃ j < n, c j = some (k, x) := by
  constructor
  · intro h
    unfold get at h
    cases hj : index c n k with
    | none => simp [hj] at h
    | some j =>
      obtain ⟨hlt, hk⟩ := index_mem hj
      obtain ⟨y, hy⟩ := holds_iff.mp hk
      have : y = x := by simpa [hj, hy] using h
      exact ⟨j, hlt, this ▸ hy⟩
  · rintro ⟨j, hj, hc⟩
    rw [get, hu.index_eq hj (holds_iff.mpr ⟨x, hc⟩), Option.bind_some, hc]
    rfl

section Update

variable (hu : Unique c n)

include hu

/-- A new key, in an empty cell or at the end. -/
theorem Unique.insert (hv : v < n → c v = none) (hn : v ≤ n) (hk : index c n k = none) :
    Unique (update c v (some (k, x))) (max n (v + 1)) := by
  have hold : ∀ i < max n (v + 1), i ≠ v → ∀ k', Holds (update c v (some (k, x))) k' i →
      i < n ∧ Holds c k' i := by
    intro i hi hne k' h
    rw [Holds, update_of_ne hne] at h
    exact ⟨by omega, h⟩
  have hnew : ∀ k', Holds (update c v (some (k, x))) k' v → k' = k := by
    intro k' h
    rw [Holds, update_self] at h
    exact (Option.some.inj h).symm
  intro i hi j hj k' h1 h2
  by_cases hiv : i = v
  · subst hiv
    by_contra hne
    obtain ⟨hjn, hcj⟩ := hold j hj (Ne.symm hne) k' h2
    exact index_eq_none.mp hk j hjn (hnew k' h1 ▸ hcj)
  · obtain ⟨hin, hci⟩ := hold i hi hiv k' h1
    by_cases hjv : j = v
    · subst hjv
      exact absurd (hnew k' h2 ▸ hci) (index_eq_none.mp hk i hin)
    · obtain ⟨hjn, hcj⟩ := hold j hj hjv k' h2
      exact hu i hin j hjn k' hci hcj

theorem Unique.get_insert (hv : v < n → c v = none) (hn : v ≤ n) (hk : index c n k = none) :
    get (update c v (some (k, x))) (max n (v + 1)) = update (get c n) k (some x) := by
  have hu' := hu.insert (x := x) hv hn hk
  funext k'
  refine Option.ext fun y => ?_
  rw [hu'.get_eq_some]
  by_cases hkk : k' = k
  · subst hkk
    rw [update_self]
    constructor
    · rintro ⟨j, hj, hc⟩
      by_cases hjv : j = v
      · subst hjv
        rw [update_self] at hc
        cases hc
        rfl
      · rw [update_of_ne hjv] at hc
        exact absurd (holds_iff.mpr ⟨y, hc⟩) (index_eq_none.mp hk j (by omega))
    · intro h
      cases h
      exact ⟨v, by omega, update_self _ _ _⟩
  · rw [update_of_ne hkk, hu.get_eq_some]
    constructor
    · rintro ⟨j, hj, hc⟩
      by_cases hjv : j = v
      · subst hjv
        rw [update_self] at hc
        cases hc
        exact absurd rfl hkk
      · rw [update_of_ne hjv] at hc
        exact ⟨j, by omega, hc⟩
    · rintro ⟨j, hj, hc⟩
      refine ⟨j, by omega, ?_⟩
      rw [update_of_ne, hc]
      rintro rfl
      rw [hv hj] at hc
      cases hc

omit hu [DecidableEq κ] in
theorem holds_clear (h : Holds (update c j none) k i) : i ≠ j ∧ Holds c k i := by
  by_cases hij : i = j
  · subst hij
    simp [Holds] at h
  · rw [Holds, update_of_ne hij] at h
    exact ⟨hij, h⟩

theorem Unique.clear (j : Nat) : Unique (update c j none) n := fun i hi l hl k h1 h2 =>
  hu i hi l hl k (holds_clear h1).2 (holds_clear h2).2

theorem Unique.get_clear (hj : index c n k = some j) :
    get (update c j none) n = update (get c n) k none := by
  obtain ⟨hjn, hkj⟩ := index_mem hj
  funext k'
  refine Option.ext fun y => ?_
  rw [(hu.clear j).get_eq_some]
  by_cases hkk : k' = k
  · subst hkk
    rw [update_self]
    constructor
    · rintro ⟨i, hi, hc⟩
      obtain ⟨hne, h⟩ := holds_clear (holds_iff.mpr ⟨y, hc⟩)
      exact absurd (hu i hi j hjn k' h hkj) hne
    · intro h
      cases h
  · rw [update_of_ne hkk, hu.get_eq_some]
    constructor
    · rintro ⟨i, hi, hc⟩
      obtain ⟨hne, -⟩ := holds_clear (holds_iff.mpr ⟨y, hc⟩)
      rw [update_of_ne hne] at hc
      exact ⟨i, hi, hc⟩
    · rintro ⟨i, hi, hc⟩
      refine ⟨i, hi, ?_⟩
      rw [update_of_ne, hc]
      rintro rfl
      obtain ⟨z, hz⟩ := holds_iff.mp hkj
      rw [hz] at hc
      cases hc
      exact hkk rfl

end Update

end Xv6.Table
