import Mathlib

/-!
# Reference-counted pools

A pool hands out items from a free list and counts the references to each. An item is held by one
owner, or shared by any number of holders. `own` and `sh` count the two kinds of references, and
`Holds` says that the pool's counts and its free list agree with them.
-/

open Function

namespace Xv6.Pool

variable {ι : Type}

structure Holds (dom : ι → Prop) (free : List ι) (refc : ι → Int) (own sh : ι → Nat) : Prop where
  inDom : ∀ p, 0 < own p + sh p → dom p
  count : ∀ p, dom p → refc p = own p + sh p
  single : ∀ p, own p ≤ 1
  excl : ∀ p, 0 < own p → sh p = 0
  nodup : free.Nodup
  mem : ∀ p, p ∈ free ↔ dom p ∧ own p + sh p = 0

variable {dom : ι → Prop} {free : List ι} {refc : ι → Int} {own sh own' sh' : ι → Nat} {p : ι}

theorem Holds.congr (h : Holds dom free refc own sh) (ho : ∀ q, own' q = own q)
    (hs : ∀ q, sh' q = sh q) : Holds dom free refc own' sh' := by
  obtain rfl : own' = own := funext ho
  obtain rfl : sh' = sh := funext hs
  exact h

theorem Holds.of_dom {dom' : ι → Prop} (h : Holds dom free refc own sh) (hd : ∀ q, dom' q ↔ dom q) :
    Holds dom' free refc own sh := by
  obtain rfl : dom' = dom := funext fun q => propext (hd q)
  exact h

/-! ## The operations -/

variable [DecidableEq ι]

/-- One reference to `p`. -/
def one (p : ι) : ι → Nat := fun q => if q = p then 1 else 0

@[simp] theorem one_self (p : ι) : one p p = 1 := if_pos rfl

theorem one_of_ne {p q : ι} (h : q ≠ p) : one p q = 0 := if_neg h

/-- An item from the free list is unreferenced, and its taker owns it. -/
theorem Holds.take (h : Holds dom (p :: free) refc own sh) :
    own p = 0 ∧ sh p = 0 ∧ dom p ∧
    Holds dom free (update refc p 1) (own + one p) sh := by
  obtain ⟨hd, h0⟩ := (h.mem p).mp (by simp)
  have hfree := List.nodup_cons.mp h.nodup
  refine ⟨by omega, by omega, hd, ?_, ?_, ?_, ?_, hfree.2, ?_⟩
  · intro q hq
    by_cases hqp : q = p
    · exact hqp ▸ hd
    · exact h.inDom q (by simpa [one_of_ne hqp] using hq)
  · intro q hq
    by_cases hqp : q = p
    · subst hqp
      simp only [update_self, Pi.add_apply, one_self]
      omega
    · simpa [update_of_ne hqp, one_of_ne hqp] using h.count q hq
  · intro q
    by_cases hqp : q = p
    · subst hqp
      simp only [Pi.add_apply, one_self]
      omega
    · simpa [one_of_ne hqp] using h.single q
  · intro q hq
    by_cases hqp : q = p
    · subst hqp; omega
    · exact h.excl q (by simpa [one_of_ne hqp] using hq)
  · intro q
    by_cases hqp : q = p
    · subst hqp
      simp [hfree.1]
    · have := h.mem q
      simpa [hqp, one_of_ne hqp] using this

/-- A new item joins the pool. -/
theorem Holds.add (h : Holds dom free refc own sh) (hp : ¬ dom p) :
    Holds (fun q => dom q ∨ q = p) (p :: free) (update refc p 0) own sh := by
  have h0 : own p + sh p = 0 := by
    by_contra hc
    exact hp (h.inDom p (by omega))
  refine ⟨fun q hq => .inl (h.inDom q hq), ?_, h.single, h.excl, ?_, ?_⟩
  · intro q hq
    by_cases hqp : q = p
    · subst hqp
      rw [update_self]
      omega
    · rw [update_of_ne hqp]
      exact h.count q (hq.resolve_right hqp)
  · exact List.nodup_cons.mpr ⟨fun hm => hp ((h.mem p).mp hm).1, h.nodup⟩
  · intro q
    by_cases hqp : q = p
    · subst hqp
      simp [h0]
    · simpa [hqp] using h.mem q

/-- The owner gives the item back. -/
theorem Holds.give (h : Holds dom free refc (own + one p) sh) :
    refc p = 1 ∧ own p = 0 ∧ sh p = 0 ∧
    Holds dom (p :: free) (update refc p 0) own sh := by
  have hs := h.single p
  have he := h.excl p
  have hd := h.inDom p
  have hc := h.count p
  simp only [Pi.add_apply, one_self] at hs he hd hc
  have hown : own p = 0 := by omega
  have hsh : sh p = 0 := he (by omega)
  have hdom : dom p := hd (by omega)
  have hnot : p ∉ free := by
    intro hm
    have := ((h.mem p).mp hm).2
    simp at this
  refine ⟨by have := hc hdom; omega, hown, hsh, ?_, ?_, ?_, ?_, List.nodup_cons.mpr ⟨hnot, h.nodup⟩, ?_⟩
  · intro q hq
    exact h.inDom q (by simp only [Pi.add_apply]; omega)
  · intro q hq
    by_cases hqp : q = p
    · subst hqp
      simp only [update_self]
      omega
    · simpa [update_of_ne hqp, one_of_ne hqp] using h.count q hq
  · intro q
    have := h.single q
    simp only [Pi.add_apply] at this
    omega
  · intro q hq
    exact h.excl q (by simp only [Pi.add_apply]; omega)
  · intro q
    by_cases hqp : q = p
    · subst hqp
      simp [hdom, hown, hsh]
    · have := h.mem q
      simpa [hqp, one_of_ne hqp] using this

/-- One holder more of a shared item. -/
theorem Holds.retain (h : Holds dom free refc own sh) (hp : 0 < sh p) :
    Holds dom free (update refc p (refc p + 1)) own (sh + one p) := by
  have hdom : dom p := h.inDom p (by omega)
  refine ⟨?_, ?_, h.single, ?_, h.nodup, ?_⟩
  · intro q hq
    by_cases hqp : q = p
    · exact hqp ▸ hdom
    · exact h.inDom q (by simpa [one_of_ne hqp] using hq)
  · intro q hq
    have := h.count q hq
    by_cases hqp : q = p
    · subst hqp
      simp only [update_self, Pi.add_apply, one_self]
      omega
    · simpa [update_of_ne hqp, one_of_ne hqp] using this
  · intro q hq
    have := h.excl q hq
    have hqp : q ≠ p := by
      rintro rfl; omega
    simpa [one_of_ne hqp] using this
  · intro q
    have := h.mem q
    by_cases hqp : q = p
    · subst hqp
      simp only [Pi.add_apply, one_self]
      constructor
      · intro hm
        have := (this.mp hm).2
        omega
      · omega
    · simpa [one_of_ne hqp] using this

/-- One holder of several lets go. -/
theorem Holds.release (h : Holds dom free refc own (sh + one p)) (hp : 0 < sh p) :
    1 < refc p ∧ Holds dom free (update refc p (refc p - 1)) own sh := by
  have hdom : dom p := h.inDom p (by simp)
  have hown : own p = 0 := by
    have := h.excl p
    simp only [Pi.add_apply, one_self] at this
    omega
  have hc := h.count p hdom
  simp only [Pi.add_apply, one_self] at hc
  refine ⟨by omega, ?_, ?_, h.single, ?_, h.nodup, ?_⟩
  · intro q hq
    exact h.inDom q (by simp only [Pi.add_apply]; omega)
  · intro q hq
    have := h.count q hq
    by_cases hqp : q = p
    · subst hqp
      simp only [update_self]
      omega
    · simpa [update_of_ne hqp, one_of_ne hqp] using this
  · intro q hq
    have := h.excl q hq
    simp only [Pi.add_apply] at this
    omega
  · intro q
    have := h.mem q
    by_cases hqp : q = p
    · subst hqp
      simp only [Pi.add_apply, one_self] at this
      constructor
      · intro hm
        have := (this.mp hm).2
        omega
      · omega
    · simpa [one_of_ne hqp] using this

/-- An owner becomes the only holder. -/
theorem Holds.publish (h : Holds dom free refc (own + one p) sh) :
    Holds dom free refc own (sh + one p) := by
  have he := h.excl p
  have hs := h.single p
  simp only [Pi.add_apply, one_self] at he hs
  refine ⟨?_, ?_, ?_, ?_, h.nodup, ?_⟩
  · intro q hq
    exact h.inDom q (by simp only [Pi.add_apply] at hq ⊢; omega)
  · intro q hq
    have := h.count q hq
    simp only [Pi.add_apply] at this ⊢
    omega
  · intro q
    have := h.single q
    simp only [Pi.add_apply] at this
    omega
  · intro q hq
    have := h.excl q (by simp only [Pi.add_apply]; omega)
    have hqp : q ≠ p := by
      rintro rfl; omega
    simpa [one_of_ne hqp] using this
  · intro q
    have := h.mem q
    simp only [Pi.add_apply] at this ⊢
    rw [this, Nat.add_assoc, Nat.add_comm (one p q)]

/-- The only holder becomes an owner. -/
theorem Holds.claim (h : Holds dom free refc own (sh + one p)) (hp : sh p = 0) :
    Holds dom free refc (own + one p) sh := by
  have he := h.excl p
  simp only [Pi.add_apply, one_self] at he
  refine ⟨?_, ?_, ?_, ?_, h.nodup, ?_⟩
  · intro q hq
    exact h.inDom q (by simp only [Pi.add_apply] at hq ⊢; omega)
  · intro q hq
    have := h.count q hq
    simp only [Pi.add_apply] at this ⊢
    omega
  · intro q
    have := h.single q
    by_cases hqp : q = p
    · subst hqp
      simp only [Pi.add_apply, one_self]
      omega
    · simpa [one_of_ne hqp] using this
  · intro q hq
    by_cases hqp : q = p
    · subst hqp; exact hp
    · have := h.excl q (by simpa [one_of_ne hqp] using hq)
      simp only [Pi.add_apply] at this
      omega
  · intro q
    have := h.mem q
    simp only [Pi.add_apply] at this ⊢
    rw [this, Nat.add_assoc, Nat.add_comm (one p q)]

/-- A holder lets go and the item has none left: it goes back to the free list. -/
theorem Holds.drop (h : Holds dom free refc own (sh + one p)) (hp : sh p = 0) :
    refc p = 1 ∧ own p = 0 ∧ Holds dom (p :: free) (update refc p 0) own sh :=
  have hg := (h.claim hp).give
  ⟨hg.1, hg.2.1, hg.2.2.2⟩

/-- The last holder lets go, and the item does not go back to the free list: the pool has lost it. -/
theorem Holds.lose (h : Holds dom free refc own (sh + one p)) (hp : sh p = 0) :
    refc p = 1 ∧
    Holds (fun q => dom q ∧ q ≠ p) free (update refc p (refc p - 1)) own sh := by
  obtain ⟨hc, hown, hd⟩ := h.drop hp
  have hfree := List.nodup_cons.mp hd.nodup
  refine ⟨hc, ?_, ?_, hd.single, hd.excl, hfree.2, ?_⟩
  · intro q hq
    refine ⟨hd.inDom q hq, ?_⟩
    rintro rfl
    omega
  · rintro q ⟨hq, hne⟩
    rw [update_of_ne hne]
    simpa [update_of_ne hne] using hd.count q hq
  · intro q
    have := hd.mem q
    by_cases hqp : q = p
    · subst hqp
      simp [hfree.1]
    · simpa [hqp] using this

/-! ## Sums of references -/

/-- Changing one term of a sum. -/
theorem sum_change {κ : Type} [DecidableEq κ] (t : Finset κ) (f g : κ → Nat) (v : κ) (hv : v ∈ t)
    (hfg : ∀ x ∈ t, x ≠ v → g x = f x) : ∑ x ∈ t, g x + f v = ∑ x ∈ t, f x + g v := by
  rw [← Finset.add_sum_erase t g hv, ← Finset.add_sum_erase t f hv]
  have : ∑ x ∈ t.erase v, g x = ∑ x ∈ t.erase v, f x := by
    apply Finset.sum_congr rfl
    intro x hx
    exact hfg x (Finset.mem_of_mem_erase hx) (Finset.ne_of_mem_erase hx)
  omega

end Xv6.Pool
