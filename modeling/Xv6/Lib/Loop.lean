import Mathlib

/-!
# Circular lists in order

A singly linked list that goes through the elements of a finite set in increasing order and from the
largest back to the smallest.
-/

open Function Finset

namespace Xv6.Loop

variable {α : Type} [LinearOrder α] {F : Finset α} {next next' : α → α} {a b p q t : α}

/-- `next` is the next larger element of `F`, and the smallest one after the largest. -/
structure Circular (F : Finset α) (next : α → α) : Prop where
  mem : ∀ a ∈ F, next a ∈ F
  up : ∀ a ∈ F, a < next a → ∀ x ∈ F, x ≤ a ∨ next a ≤ x
  wrap : ∀ a ∈ F, next a ≤ a → ∀ x ∈ F, next a ≤ x ∧ x ≤ a

theorem Circular.congr (h : Circular F next) (heq : ∀ a ∈ F, next' a = next a) : Circular F next' where
  mem a ha := by rw [heq a ha]; exact h.mem a ha
  up a ha := by rw [heq a ha]; exact h.up a ha
  wrap a ha := by rw [heq a ha]; exact h.wrap a ha

theorem circular_singleton (a : α) (h : next a = a) : Circular {a} next := by
  constructor <;> simp [h]

/-! ## Going round -/

/-- How many steps it is from `a` to `t`. -/
def dist (F : Finset α) (t a : α) : Nat :=
  if a ≤ t then (F.filter fun x => a < x ∧ x ≤ t).card
  else (F.filter fun x => a < x).card + (F.filter fun x => x ≤ t).card

theorem dist_le_card (F : Finset α) (t a : α) : dist F t a ≤ F.card := by
  unfold dist
  split
  · exact card_filter_le _ _
  · next h =>
    rw [← card_union_of_disjoint]
    · exact card_le_card (union_subset (filter_subset _ _) (filter_subset _ _))
    · rw [disjoint_filter]
      exact fun x _ hx hxt => h (le_of_lt (lt_of_lt_of_le hx hxt))

theorem dist_self (F : Finset α) (t : α) : dist F t t = 0 := by
  rw [dist, if_pos le_rfl, card_eq_zero, filter_eq_empty_iff]
  exact fun x _ hx => not_le_of_gt hx.1 hx.2

/-- Every step brings us one nearer. -/
theorem Circular.dist_next (h : Circular F next) (ha : a ∈ F) (ht : t ∈ F) (hne : a ≠ t) :
    dist F t (next a) + 1 = dist F t a := by
  have hn := h.mem a ha
  rcases lt_or_ge a (next a) with hup | hwrap
  · have hstep : ∀ x ∈ F, a < x ↔ x = next a ∨ next a < x := by
      intro x hx
      refine ⟨fun hlt => ?_, ?_⟩
      · exact (eq_or_lt_of_le ((h.up a ha hup x hx).resolve_left (not_le_of_gt hlt))).imp_left Eq.symm
      · rintro (rfl | hlt)
        · exact hup
        · exact hup.trans hlt
    rcases lt_or_gt_of_ne hne with hat | hta
    · have hnt : next a ≤ t := (h.up a ha hup t ht).resolve_left (not_le_of_gt hat)
      have hset : (F.filter fun x => a < x ∧ x ≤ t) =
          insert (next a) (F.filter fun x => next a < x ∧ x ≤ t) := by
        ext x
        simp only [mem_filter, mem_insert]
        constructor
        · rintro ⟨hx, hax, hxt⟩
          exact ((hstep x hx).mp hax).imp_right fun hlt => ⟨hx, hlt, hxt⟩
        · rintro (rfl | ⟨hx, hlt, hxt⟩)
          · exact ⟨hn, hup, hnt⟩
          · exact ⟨hx, hup.trans hlt, hxt⟩
      rw [dist, dist, if_pos hnt, if_pos hat.le, hset, card_insert_of_notMem (by simp)]
    · have hset : (F.filter fun x => a < x) = insert (next a) (F.filter fun x => next a < x) := by
        ext x
        simp only [mem_filter, mem_insert]
        constructor
        · rintro ⟨hx, hax⟩
          exact ((hstep x hx).mp hax).imp_right fun hlt => ⟨hx, hlt⟩
        · rintro (rfl | ⟨hx, hlt⟩)
          · exact ⟨hn, hup⟩
          · exact ⟨hx, hup.trans hlt⟩
      rw [dist, dist, if_neg (not_le_of_gt (hta.trans hup)), if_neg (not_le_of_gt hta), hset,
        card_insert_of_notMem (by simp), Nat.add_right_comm]
  · -- from the largest element to the smallest
    have hw := h.wrap a ha hwrap
    have hta : t < a := lt_of_le_of_ne (hw t ht).2 (Ne.symm hne)
    have hnone : (F.filter fun x => a < x) = ∅ :=
      filter_eq_empty_iff.mpr fun x hx => not_lt_of_ge (hw x hx).2
    have hset : (F.filter fun x => x ≤ t) = insert (next a) (F.filter fun x => next a < x ∧ x ≤ t) := by
      ext x
      simp only [mem_filter, mem_insert]
      constructor
      · rintro ⟨hx, hxt⟩
        exact (eq_or_lt_of_le (hw x hx).1).imp Eq.symm fun hlt => ⟨hx, hlt, hxt⟩
      · rintro (rfl | ⟨hx, -, hxt⟩)
        · exact ⟨hn, (hw t ht).1⟩
        · exact ⟨hx, hxt⟩
    rw [dist, dist, if_pos (hw t ht).1, if_neg (not_le_of_gt hta), hnone, hset,
      card_insert_of_notMem (by simp), card_empty, Nat.zero_add]

/-- From the successor of `a` everything is nearer than `a` itself. -/
theorem Circular.dist_le (h : Circular F next) (ha : a ∈ F) (ht : t ∈ F) :
    dist F t (next a) ≤ dist F a (next a) := by
  rcases lt_or_ge a (next a) with hup | hwrap
  · rw [dist, dist, if_neg (not_le_of_gt hup)]
    split
    · refine (card_le_card ?_).trans (Nat.le_add_right _ _)
      exact monotone_filter_right _ fun x _ hx => hx.1
    · next hlt =>
      have hta := (h.up a ha hup t ht).resolve_right hlt
      refine Nat.add_le_add_left (card_le_card ?_) _
      exact monotone_filter_right _ fun x _ hx => hx.trans hta
  · obtain ⟨hmin, hmax⟩ := h.wrap a ha hwrap t ht
    rw [dist, dist, if_pos hmin, if_pos hwrap]
    refine card_le_card (monotone_filter_right _ fun x _ hx => ?_)
    exact ⟨hx.1, hx.2.trans hmax⟩

/-! ## Where an element belongs -/

/-- `b` comes after `p` and before `next p`. -/
def Between (next : α → α) (p b : α) : Prop :=
  p < b ∧ b < next p ∨ next p ≤ p ∧ (p < b ∨ b < next p)

theorem Circular.exists_between (h : Circular F next) (hF : F.Nonempty) (hb : b ∉ F) :
    ∃ p ∈ F, Between next p b := by
  by_cases hlow : (F.filter fun x => x < b).Nonempty
  · -- the largest element below `b`
    obtain ⟨p, hp, hmax⟩ := exists_max_image (F.filter fun x => x < b) id hlow
    obtain ⟨hpF, hpb⟩ := mem_filter.mp hp
    refine ⟨p, hpF, ?_⟩
    rcases lt_or_ge p (next p) with hup | hwrap
    · refine .inl ⟨hpb, lt_of_not_ge fun hle => ?_⟩
      have hlt : next p < b := lt_of_le_of_ne hle fun heq => hb (heq ▸ h.mem p hpF)
      exact not_le_of_gt hup (hmax (next p) (mem_filter.mpr ⟨h.mem p hpF, hlt⟩))
    · exact .inr ⟨hwrap, .inl hpb⟩
  · -- `b` is before all of them
    obtain ⟨p, hpF, hmax⟩ := exists_max_image F id hF
    have hwrap : next p ≤ p := hmax _ (h.mem p hpF)
    refine ⟨p, hpF, .inr ⟨hwrap, .inr (lt_of_not_ge fun hle => hlow ⟨next p, ?_⟩)⟩⟩
    exact mem_filter.mpr ⟨h.mem p hpF, lt_of_le_of_ne hle fun heq => hb (heq ▸ h.mem p hpF)⟩

/-! ## Adding and removing -/

theorem Circular.injOn (h : Circular F next) (ha : a ∈ F) (hb : b ∈ F) (heq : next a = next b) : a = b := by
  have hle : ∀ a ∈ F, ∀ b ∈ F, next a = next b → ¬ a < b := by
    intro a ha b hb heq hlt
    rcases lt_or_ge a (next a) with hup | hwrap
    · have hnb : next b ≤ b := heq ▸ (h.up a ha hup b hb).resolve_left (not_le_of_gt hlt)
      exact not_le_of_gt hup (heq ▸ (h.wrap b hb hnb a ha).1)
    · exact not_le_of_gt hlt (h.wrap a ha hwrap b hb).2
  exact le_antisymm (le_of_not_gt (hle b hb a ha heq.symm)) (le_of_not_gt (hle a ha b hb heq))

theorem Circular.insert (h : Circular F next) (hp : p ∈ F) (hb : b ∉ F) (hbt : Between next p b) :
    Circular (insert b F) (update (update next b (next p)) p b) := by
  have hbp : b ≠ p := fun heq => hb (heq ▸ hp)
  have hself : update (update next b (next p)) p b p = b := update_self ..
  have hnew : update (update next b (next p)) p b b = next p := by
    rw [update_of_ne hbp, update_self]
  have hold : ∀ x ∈ F, x ≠ p → update (update next b (next p)) p b x = next x := by
    intro x hx hxp
    rw [update_of_ne hxp, update_of_ne fun heq : x = b => hb (heq ▸ hx)]
  constructor
  · intro x hx
    rcases mem_insert.mp hx with rfl | hxF
    · rw [hnew]
      exact mem_insert_of_mem (h.mem p hp)
    by_cases hxp : x = p
    · rw [hxp, hself]
      exact mem_insert_self _ _
    · rw [hold x hxF hxp]
      exact mem_insert_of_mem (h.mem x hxF)
  · intro x hx
    rcases mem_insert.mp hx with rfl | hxF
    · rw [hnew]
      intro hup y hy
      rcases mem_insert.mp hy with rfl | hy
      · exact .inl le_rfl
      rcases hbt with ⟨h1, h2⟩ | ⟨hw, -⟩
      · exact (h.up p hp (h1.trans h2) y hy).imp_left fun hle => hle.trans h1.le
      · exact .inr (h.wrap p hp hw y hy).1
    by_cases hxp : x = p
    · rw [hxp, hself]
      intro hup y hy
      rcases mem_insert.mp hy with rfl | hy
      · exact .inr le_rfl
      rcases hbt with ⟨h1, h2⟩ | ⟨hw, -⟩
      · exact (h.up p hp (h1.trans h2) y hy).imp_right h2.le.trans
      · exact .inl (h.wrap p hp hw y hy).2
    · rw [hold x hxF hxp]
      intro hup y hy
      rcases mem_insert.mp hy with rfl | hy
      · by_contra hc
        rw [not_or, not_le, not_le] at hc
        rcases hbt with ⟨h1, h2⟩ | ⟨hw, h1 | h2⟩
        · have hle := (h.up p hp (h1.trans h2) x hxF).resolve_right (not_le_of_gt (hc.1.trans h2))
          have hnx := (h.up x hxF hup p hp).resolve_left (not_le_of_gt (lt_of_le_of_ne hle hxp))
          exact not_le_of_gt (h1.trans hc.2) hnx
        · exact not_le_of_gt (h1.trans hc.2) (h.wrap p hp hw _ (h.mem x hxF)).2
        · exact not_le_of_gt (hc.1.trans h2) (h.wrap p hp hw x hxF).1
      · exact h.up x hxF hup y hy
  · intro x hx
    rcases mem_insert.mp hx with rfl | hxF
    · rw [hnew]
      intro hle y hy
      rcases mem_insert.mp hy with rfl | hy
      · exact ⟨hle, le_rfl⟩
      rcases hbt with ⟨-, h2⟩ | ⟨hw, h1 | h2⟩
      · exact absurd hle (not_le_of_gt h2)
      · exact ⟨(h.wrap p hp hw y hy).1, (h.wrap p hp hw y hy).2.trans h1.le⟩
      · exact absurd hle (not_le_of_gt h2)
    by_cases hxp : x = p
    · rw [hxp, hself]
      intro hle y hy
      rcases mem_insert.mp hy with rfl | hy
      · exact ⟨le_rfl, hle⟩
      rcases hbt with ⟨h1, -⟩ | ⟨hw, h1 | h2⟩
      · exact absurd hle (not_le_of_gt h1)
      · exact absurd hle (not_le_of_gt h1)
      · exact ⟨h2.le.trans (h.wrap p hp hw y hy).1, (h.wrap p hp hw y hy).2⟩
    · rw [hold x hxF hxp]
      intro hle y hy
      have hx' := h.wrap x hxF hle
      rcases mem_insert.mp hy with rfl | hy
      · rcases hbt with ⟨h1, h2⟩ | ⟨hw, -⟩
        · exact ⟨(hx' p hp).1.trans h1.le, h2.le.trans (hx' _ (h.mem p hp)).2⟩
        · exact absurd (le_antisymm (h.wrap p hp hw x hxF).2 (hx' p hp).2) hxp
      · exact hx' y hy

theorem Circular.erase (h : Circular F next) (hp : p ∈ F) (hne : next p ≠ p) :
    Circular (F.erase (next p)) (update next p (next (next p))) := by
  have hq := h.mem p hp
  have hqq : next (next p) ≠ next p := fun heq => hne (h.injOn hq hp heq)
  have hold : ∀ x, x ≠ p → update next p (next (next p)) x = next x :=
    fun x hx => update_of_ne hx _ _
  have hself : update next p (next (next p)) p = next (next p) := update_self ..
  constructor
  · intro x hx
    obtain ⟨-, hxF⟩ := mem_erase.mp hx
    by_cases hxp : x = p
    · rw [hxp, hself]
      exact mem_erase.mpr ⟨hqq, h.mem _ hq⟩
    · rw [hold x hxp]
      exact mem_erase.mpr ⟨fun heq => hxp (h.injOn hxF hp heq), h.mem x hxF⟩
  · intro x hx
    obtain ⟨-, hxF⟩ := mem_erase.mp hx
    by_cases hxp : x = p
    · rw [hxp, hself]
      intro hup y hy
      obtain ⟨hyq, hyF⟩ := mem_erase.mp hy
      rcases lt_or_ge p (next p) with h1 | h1
      · rcases lt_or_ge (next p) (next (next p)) with h2 | h2
        · refine (h.up p hp h1 y hyF).imp_right fun hle => ?_
          exact (h.up _ hq h2 y hyF).resolve_left (not_le_of_gt (lt_of_le_of_ne hle (Ne.symm hyq)))
        · exact absurd (h.wrap _ hq h2 p hp).1 (not_le_of_gt hup)
      · exact .inl (h.wrap p hp h1 y hyF).2
    · rw [hold x hxp]
      exact fun hup y hy => h.up x hxF hup y (mem_of_mem_erase hy)
  · intro x hx
    obtain ⟨-, hxF⟩ := mem_erase.mp hx
    by_cases hxp : x = p
    · rw [hxp, hself]
      intro hle y hy
      obtain ⟨hyq, hyF⟩ := mem_erase.mp hy
      rcases lt_or_ge p (next p) with h1 | h1
      · -- `next p` is the largest element
        have hw := h.wrap _ hq (hle.trans h1.le)
        exact ⟨(hw y hyF).1, (h.up p hp h1 y hyF).resolve_right
          (not_le_of_gt (lt_of_le_of_ne (hw y hyF).2 hyq))⟩
      · -- `next p` is the smallest element
        have hw := h.wrap p hp h1
        have h2 : next p < next (next p) := lt_of_le_of_ne (hw _ (h.mem _ hq)).1 (Ne.symm hqq)
        exact ⟨(h.up _ hq h2 y hyF).resolve_left
          (not_le_of_gt (lt_of_le_of_ne (hw y hyF).1 (Ne.symm hyq))), (hw y hyF).2⟩
    · rw [hold x hxp]
      exact fun hle y hy => h.wrap x hxF hle y (mem_of_mem_erase hy)

end Xv6.Loop
