import Mathlib

/-!
# Exact reference counts

`t o` is what the owner `o` refers to. A count is exact if it is the number of owners that refer to the object.
-/

namespace Xv6.Refs

variable {O R : Type} [Fintype O] [DecidableEq R] {t t' : O → Option R} {ref ref' : R → Nat}
  {o o' : O} {r r' : R}

/-- The number of owners of `r`. -/
def count (t : O → Option R) (r : R) : Nat := (Finset.univ.filter fun o => t o = some r).card

def Counted (t : O → Option R) (ref : R → Nat) : Prop := ∀ r, ref r = count t r

theorem Counted.pos (h : Counted t ref) (ho : t o = some r) : 0 < ref r := by
  rw [h r]
  exact Finset.card_pos.mpr ⟨o, by simpa using ho⟩

/-- An object with no reference is referred to by nobody. -/
theorem Counted.unowned (h : Counted t ref) (hr : ref r = 0) (o : O) : t o ≠ some r := fun ho => by
  have := h.pos ho
  omega

/-- An object with one reference has one owner. -/
theorem Counted.only (h : Counted t ref) (hr : ref r = 1) (ho : t o = some r) (ho' : t o' = some r) : o = o' := by
  rw [h r] at hr
  exact Finset.card_le_one.mp hr.le o (by simpa using ho) o' (by simpa using ho')

theorem Counted.congr (h : Counted t ref) (ht : ∀ o, t' o = t o) (hr : ∀ r, ref' r = ref r) : Counted t' ref' := by
  obtain rfl : t' = t := funext ht
  exact fun r => (hr r).trans (h r)

/-- The owners are renamed. -/
theorem Counted.rename (h : Counted t ref) (e : O ≃ O) (ht : ∀ o, t' o = t (e o)) : Counted t' ref := by
  intro r
  rw [h r]
  refine (Finset.card_bij (fun o _ => e o) ?_ ?_ ?_).symm
  · intro o ho
    simpa [ht] using ho
  · intro o _ o' _ he
    exact e.injective he
  · intro o ho
    exact ⟨e.symm o, by simpa [ht] using ho, e.apply_symm_apply o⟩

theorem count_same (ho : t o ≠ some r) (ho' : t' o ≠ some r) (hother : ∀ o', o' ≠ o → t' o' = t o') :
    count t' r = count t r := by
  unfold count
  congr 1
  ext o'
  by_cases he : o' = o
  · simp [he, ho, ho']
  · simp [hother o' he]

variable [DecidableEq O]

theorem count_add (ho : t o ≠ some r) (ho' : t' o = some r) (hother : ∀ o', o' ≠ o → t' o' = t o') :
    count t' r = count t r + 1 := by
  have hins : (Finset.univ.filter fun o => t' o = some r) = insert o (Finset.univ.filter fun o => t o = some r) := by
    ext o'
    by_cases he : o' = o
    · simp [he, ho']
    · simp [he, hother o' he]
  rw [count, count, hins, Finset.card_insert_of_notMem (by simpa using ho)]

/-- An owner without a reference takes one. -/
theorem Counted.add (h : Counted t ref) (hnone : t o = none) (ho : t' o = some r)
    (hother : ∀ o', o' ≠ o → t' o' = t o') (hr : ref' r = ref r + 1) (hr' : ∀ r', r' ≠ r → ref' r' = ref r') :
    Counted t' ref' := by
  intro x
  by_cases hx : x = r
  · rw [hx, hr, h r, count_add (by simp [hnone]) ho hother]
  · rw [hr' x hx, h x, count_same (by simp [hnone]) (by simpa [ho] using Ne.symm hx) hother]

/-- An owner gives its reference up. -/
theorem Counted.drop (h : Counted t ref) (ho : t o = some r) (hnone : t' o = none)
    (hother : ∀ o', o' ≠ o → t' o' = t o') (hr : ref' r = ref r - 1) (hr' : ∀ r', r' ≠ r → ref' r' = ref r') :
    Counted t' ref' := by
  have hback : ∀ o', o' ≠ o → t o' = t' o' := fun o' he => (hother o' he).symm
  intro x
  by_cases hx : x = r
  · rw [hx, hr, h r, count_add (by simp [hnone]) ho hback, Nat.add_sub_cancel]
  · rw [hr' x hx, h x, count_same (by simpa [ho] using Ne.symm hx) (by simp [hnone]) hother]

/-! ## Sums of shares -/

end Xv6.Refs
