import Mathlib

/-!
# Resources with one owner each

`t o` is the resource of the owner `o`. A resource is in use exactly if it belongs to the base or to one
owner.
-/

namespace Xv6.Owner

variable {O R : Type} {base used used' : R → Prop} {t t' : O → Option R} {o o' : O} {r : R}

structure Owned (base : R → Prop) (t : O → Option R) (used : R → Prop) : Prop where
  one : ∀ o o' r, t o = some r → t o' = some r → o = o'
  apart : ∀ o r, t o = some r → ¬ base r
  used : ∀ r, used r ↔ base r ∨ ∃ o, t o = some r

theorem Owned.in_use (h : Owned base t used) (ho : t o = some r) : used r := (h.used r).mpr (.inr ⟨o, ho⟩)

theorem Owned.congr (h : Owned base t used) (ht : ∀ o, t' o = t o) (hu : ∀ r, used' r ↔ used r) :
    Owned base t' used' := by
  obtain rfl : t' = t := funext ht
  exact ⟨h.one, h.apart, fun r => (hu r).trans (h.used r)⟩

/-- The owners are renamed. -/
theorem Owned.rename (h : Owned base t used) (e : O ≃ O) (ht : ∀ o, t' o = t (e o)) : Owned base t' used := by
  refine ⟨fun o o' r ho ho' => ?_, fun o r ho => ?_, fun r => ?_⟩
  · rw [ht] at ho ho'
    exact e.injective (h.one _ _ r ho ho')
  · rw [ht] at ho
    exact h.apart _ r ho
  · rw [h.used r]
    refine or_congr_right ⟨fun ⟨o, ho⟩ => ⟨e.symm o, ?_⟩, fun ⟨o, ho⟩ => ⟨e o, (ht o).symm.trans ho⟩⟩
    rw [ht, e.apply_symm_apply, ho]

/-- An owner without a resource takes one that is not in use. -/
theorem Owned.alloc (h : Owned base t used) (hr : ¬ used r) (ho : t' o = some r)
    (hnone : t o = none) (hother : ∀ o', o' ≠ o → t' o' = t o') (hu : ∀ r', used' r' ↔ used r' ∨ r' = r) :
    Owned base t' used' := by
  have hnew : ∀ o', t o' ≠ some r := fun o' ho' => hr (h.in_use ho')
  refine ⟨fun o₁ o₂ r' h1 h2 => ?_, fun o₁ r' h1 hb => ?_, fun r' => ?_⟩
  · by_cases e1 : o₁ = o <;> by_cases e2 : o₂ = o
    · rw [e1, e2]
    · rw [e1, ho] at h1
      rw [hother o₂ e2, ← Option.some.inj h1] at h2
      exact absurd h2 (hnew o₂)
    · rw [e2, ho] at h2
      rw [hother o₁ e1, ← Option.some.inj h2] at h1
      exact absurd h1 (hnew o₁)
    · rw [hother o₁ e1] at h1
      rw [hother o₂ e2] at h2
      exact h.one o₁ o₂ r' h1 h2
  · by_cases e1 : o₁ = o
    · rw [e1, ho] at h1
      obtain rfl := Option.some.inj h1
      exact hr ((h.used r).mpr (.inl hb))
    · rw [hother o₁ e1] at h1
      exact h.apart o₁ r' h1 hb
  · rw [hu, h.used r']
    constructor
    · rintro ((hb | ⟨o₁, h1⟩) | rfl)
      · exact .inl hb
      · have e1 : o₁ ≠ o := by
          rintro rfl
          rw [hnone] at h1
          cases h1
        exact .inr ⟨o₁, (hother o₁ e1).trans h1⟩
      · exact .inr ⟨o, ho⟩
    · rintro (hb | ⟨o₁, h1⟩)
      · exact .inl (.inl hb)
      · by_cases e1 : o₁ = o
        · rw [e1, ho] at h1
          exact .inr (Option.some.inj h1).symm
        · exact .inl (.inr ⟨o₁, (hother o₁ e1).symm.trans h1⟩)

/-- An owner gives its resource back. -/
theorem Owned.free (h : Owned base t used) (ho : t o = some r) (hnone : t' o = none)
    (hother : ∀ o', o' ≠ o → t' o' = t o') (hu : ∀ r', used' r' ↔ used r' ∧ r' ≠ r) : Owned base t' used' := by
  have hback : ∀ o' r', t' o' = some r' → t o' = some r' ∧ r' ≠ r := by
    intro o' r' h1
    have e1 : o' ≠ o := by
      rintro rfl
      rw [hnone] at h1
      cases h1
    rw [hother o' e1] at h1
    exact ⟨h1, fun hr => e1 (h.one o' o r (hr ▸ h1) ho)⟩
  refine ⟨fun o₁ o₂ r' h1 h2 => h.one o₁ o₂ r' (hback o₁ r' h1).1 (hback o₂ r' h2).1,
    fun o₁ r' h1 => h.apart o₁ r' (hback o₁ r' h1).1, fun r' => ?_⟩
  rw [hu, h.used r']
  constructor
  · rintro ⟨hb | ⟨o₁, h1⟩, hne⟩
    · exact .inl hb
    · have e1 : o₁ ≠ o := by
        rintro rfl
        exact hne (Option.some.inj (h1.symm.trans ho))
      exact .inr ⟨o₁, (hother o₁ e1).trans h1⟩
  · rintro (hb | ⟨o₁, h1⟩)
    · refine ⟨.inl hb, ?_⟩
      rintro rfl
      exact h.apart o _ ho hb
    · obtain ⟨h1, hne⟩ := hback o₁ r' h1
      exact ⟨.inr ⟨o₁, h1⟩, hne⟩

end Xv6.Owner
