import Mathlib

/-!
# Circular doubly linked lists

A list through `next` and `prev` pointers with a head that is not an element. The head is `none`.
-/

open Function List

namespace Xv6.Circle

variable {κ : Type}

structure Links (κ : Type) where
  next : Option κ → Option κ
  prev : Option κ → Option κ

/-- From `a`, `next` goes through `l` to `b`, and `prev` goes back. -/
def Seg (p : Links κ) : Option κ → List κ → Option κ → Prop
  | a, [], b => p.next a = b ∧ p.prev b = a
  | a, x :: l, b => p.next a = some x ∧ p.prev (some x) = a ∧ Seg p (some x) l b

/-- The list through the pointers is `l`, with no element twice. -/
structure Linked (p : Links κ) (l : List κ) : Prop where
  nodup : l.Nodup
  seg : Seg p none l none

variable {p p' : Links κ} {a b : Option κ} {x : κ} {l l₁ l₂ : List κ}

/-! ## Segments -/

theorem seg_append : Seg p a (l₁ ++ x :: l₂) b ↔ Seg p a l₁ (some x) ∧ Seg p (some x) l₂ b := by
  induction l₁ generalizing a with
  | nil => simp [Seg, and_assoc]
  | cons y l₁ ih => simp [Seg, ih, and_assoc]

theorem Seg.congr (h : Seg p a l b) (hnext : ∀ y, y = a ∨ y ∈ l.map some → p'.next y = p.next y)
    (hprev : ∀ y, y ∈ l.map some ∨ y = b → p'.prev y = p.prev y) : Seg p' a l b := by
  induction l generalizing a with
  | nil => exact ⟨(hnext a (.inl rfl)).trans h.1, (hprev b (.inr rfl)).trans h.2⟩
  | cons x l ih =>
    refine ⟨(hnext a (.inl rfl)).trans h.1, (hprev (some x) (.inl (by simp))).trans h.2.1,
      ih h.2.2 (fun y hy => hnext y (.inr ?_)) fun y hy => hprev y (hy.imp_left fun hy => ?_)⟩
    · rcases hy with rfl | hy
      · simp
      · simp only [map_cons, mem_cons, hy, or_true]
    · simp only [map_cons, mem_cons, hy, or_true]

/-- Where a segment comes from. -/
theorem Seg.prev_end (h : Seg p a l b) : p.prev b = a ∧ l = [] ∨ p.prev b ∈ l.map some := by
  induction l generalizing a with
  | nil => exact .inl ⟨h.2, rfl⟩
  | cons x l ih =>
    rcases ih h.2.2 with ⟨hx, -⟩ | hmem
    · exact .inr (by simp [hx])
    · exact .inr (by simp only [map_cons, mem_cons, hmem, or_true])

/-- Where a segment goes to. -/
theorem Seg.next_start (h : Seg p a l b) : p.next a = b ∧ l = [] ∨ p.next a ∈ l.map some := by
  cases l with
  | nil => exact .inl ⟨h.1, rfl⟩
  | cons x l => exact .inr (by simp [h.1])

/-- The same pointers the other way round. -/
def Links.swap (p : Links κ) : Links κ := ⟨p.prev, p.next⟩

theorem Seg.reverse (h : Seg p a l b) : Seg p.swap b l.reverse a := by
  induction l generalizing a with
  | nil => exact ⟨h.2, h.1⟩
  | cons x l ih =>
    rw [reverse_cons, seg_append]
    exact ⟨ih h.2.2, h.2.1, h.1⟩

/-! ## Putting an element in front, and taking one out -/

variable [DecidableEq κ]

/-- `b->next = head.next; b->prev = &head; head.next->prev = b; head.next = b` -/
def Links.pushFront (p : Links κ) (x : κ) : Links κ :=
  let p := { p with next := Function.update p.next (some x) (p.next none) }
  let p := { p with prev := Function.update p.prev (some x) none }
  let p := { p with prev := Function.update p.prev (p.next none) (some x) }
  { p with next := Function.update p.next none (some x) }

/-- `b->next->prev = b->prev; b->prev->next = b->next` -/
def Links.unlink (p : Links κ) (x : κ) : Links κ :=
  let p := { p with prev := Function.update p.prev (p.next (some x)) (p.prev (some x)) }
  { p with next := Function.update p.next (p.prev (some x)) (p.next (some x)) }

theorem linked_pushFront (h : Linked p l) (hx : x ∉ l) : Linked (p.pushFront x) (x :: l) := by
  have hfirst : p.next none ≠ some x := by
    intro hc
    rcases h.seg.next_start with ⟨hn, -⟩ | hmem
    · rw [hc] at hn
      cases hn
    · rw [hc] at hmem
      simp only [mem_map, Option.some.injEq, exists_eq_right] at hmem
      exact hx hmem
  have hnext : (p.pushFront x).next = update (update p.next (some x) (p.next none)) none
      (some x) := rfl
  have hprev : (p.pushFront x).prev = update (update p.prev (some x) none) (p.next none)
      (some x) := by
    simp [Links.pushFront]
  refine ⟨nodup_cons.mpr ⟨hx, h.nodup⟩, ?_, ?_, ?_⟩
  · rw [hnext, update_self]
  · rw [hprev, update_of_ne (Ne.symm hfirst), update_self]
  · have hself : (p.pushFront x).next (some x) = p.next none := by
      rw [hnext, update_of_ne (by simp), update_self]
    have hseg := h.seg
    cases l with
    | nil =>
      refine ⟨hself.trans hseg.1, ?_⟩
      rw [hprev, hseg.1, update_self]
    | cons y l =>
      obtain ⟨hy, hyp, hrest⟩ := hseg
      have hnd := nodup_cons.mp h.nodup
      refine ⟨hself.trans hy, by rw [hprev, hy, update_self], hrest.congr (fun z hz => ?_)
        fun z hz => ?_⟩
      · have hzx : z ≠ some x ∧ z ≠ none := by
          rcases hz with rfl | hz
          · simp only [ne_eq, Option.some.injEq, reduceCtorEq, not_false_eq_true, and_true]
            rintro rfl
            exact hx (by simp)
          · obtain ⟨w, hw, rfl⟩ := mem_map.mp hz
            simp only [ne_eq, Option.some.injEq, reduceCtorEq, not_false_eq_true, and_true]
            rintro rfl
            exact hx (by simp [hw])
        rw [hnext, update_of_ne hzx.2, update_of_ne hzx.1]
      · have hzx : z ≠ some x ∧ z ≠ p.next none := by
          rw [hy]
          rcases hz with hz | rfl
          · obtain ⟨w, hw, rfl⟩ := mem_map.mp hz
            simp only [ne_eq, Option.some.injEq]
            refine ⟨?_, ?_⟩
            · rintro rfl
              exact hx (by simp [hw])
            · rintro rfl
              exact hnd.1 hw
          · simp
        rw [hprev, update_of_ne hzx.2, update_of_ne hzx.1]

/-- Taking `x` out joins the segments before and after it. -/
theorem Seg.unlink (h₁ : Seg p a l₁ (some x)) (h₂ : Seg p (some x) l₂ b) (hnd : (l₁ ++ x :: l₂).Nodup)
    (ha : ∀ y ∈ l₁ ++ x :: l₂, a ≠ some y) (hb : ∀ y ∈ l₁ ++ x :: l₂, b ≠ some y) :
    Seg (p.unlink x) a (l₁ ++ l₂) b := by
  have hprev : (p.unlink x).prev = update p.prev (p.next (some x)) (p.prev (some x)) := rfl
  have hnext : (p.unlink x).next = update p.next (p.prev (some x)) (p.next (some x)) := by
    simp only [Links.unlink, update_apply, ite_self]
  induction l₁ generalizing a with
  | nil =>
    rw [h₁.2] at hprev hnext
    have hxl := (nodup_cons.mp hnd)
    cases l₂ with
    | nil => exact ⟨by rw [hnext, update_self, h₂.1], by rw [hprev, h₂.1, update_self]⟩
    | cons y l₂ =>
      obtain ⟨hy, hyp, hrest⟩ := h₂
      have hyl := nodup_cons.mp hxl.2
      refine ⟨by rw [hnext, update_self, hy], by rw [hprev, hy, update_self],
        hrest.congr (fun z hz => ?_) fun z hz => ?_⟩
      · have hza : z ≠ a := by
          rintro rfl
          rcases hz with hz | hz
          · exact ha y (by simp) hz
          · obtain ⟨w, hw, hwz⟩ := mem_map.mp hz
            exact ha w (by simp [hw]) hwz.symm
        rw [hnext, update_of_ne hza]
      · have hzy : z ≠ some y := by
          rintro rfl
          rcases hz with hz | hz
          · simp only [mem_map, Option.some.injEq, exists_eq_right] at hz
            exact hyl.1 hz
          · exact hb y (by simp) hz.symm
        rw [hprev, hy, update_of_ne hzy]
  | cons z l₁ ih =>
    obtain ⟨hz, hzp, hrest⟩ := h₁
    rw [cons_append] at hnd
    have hzl := nodup_cons.mp hnd
    refine ⟨?_, ?_, ih hrest hzl.2 (fun y hy hc => hzl.1 (Option.some.inj hc ▸ hy))
      fun y hy => hb y (mem_cons_of_mem z hy)⟩
    · -- `a` is not the element before `x`
      have hax : a ≠ p.prev (some x) := by
        intro hc
        rcases hrest.prev_end with ⟨hp, -⟩ | hmem
        · exact ha z (by simp) (hc.trans hp)
        · obtain ⟨w, hw, hwp⟩ := mem_map.mp hmem
          exact ha w (by simp [hw]) (hc.trans hwp.symm)
      rw [hnext, update_of_ne hax, hz]
    · have hzx : some z ≠ p.next (some x) := by
        intro hc
        rcases h₂.next_start with ⟨hp, -⟩ | hmem
        · exact hb z (by simp) (hc.trans hp).symm
        · rw [← hc] at hmem
          simp only [mem_map, Option.some.injEq, exists_eq_right] at hmem
          exact hzl.1 (by simp [hmem])
      rw [hprev, update_of_ne hzx, hzp]

theorem linked_unlink (h : Linked p l) (hx : x ∈ l) : Linked (p.unlink x) (l.erase x) := by
  refine ⟨h.nodup.erase x, ?_⟩
  obtain ⟨l₁, l₂, rfl, hx₁⟩ := eq_append_cons_of_mem hx
  obtain ⟨h₁, h₂⟩ := seg_append.mp h.seg
  rw [erase_append_right _ hx₁, erase_cons_head]
  exact h₁.unlink h₂ h.nodup (fun y _ => by simp) fun y _ => by simp

/-- An element is moved to the front. -/
theorem linked_moveFront (h : Linked p l) (hx : x ∈ l) :
    Linked ((p.unlink x).pushFront x) (x :: l.erase x) :=
  linked_pushFront (linked_unlink h hx) h.nodup.not_mem_erase

/-! ## Searching -/

/-- Follow the pointers until an element is found or the head is reached. `none` when the fuel is out. -/
def search (step : Option κ → Option κ) (ok : κ → Bool) : Nat → Option κ → Option (Option κ)
  | 0, _ => none
  | _ + 1, none => some none
  | fuel + 1, some x => if ok x then some (some x) else search step ok fuel (step (some x))

omit [DecidableEq κ] in
theorem Seg.search (h : Seg p a l none) (ok : κ → Bool) {fuel : Nat} (hf : l.length < fuel) :
    search p.next ok fuel (p.next a) = some (l.find? ok) := by
  induction l generalizing a fuel with
  | nil =>
    obtain ⟨fuel, rfl⟩ := Nat.exists_eq_succ_of_ne_zero (by omega : fuel ≠ 0)
    rw [h.1]
    rfl
  | cons x l ih =>
    obtain ⟨fuel, rfl⟩ := Nat.exists_eq_succ_of_ne_zero (by omega : fuel ≠ 0)
    rw [h.1]
    unfold Circle.search
    rw [List.find?_cons]
    cases ok x with
    | true => rfl
    | false => exact ih h.2.2 (by simpa using hf)

omit [DecidableEq κ] in
theorem Linked.search_next (h : Linked p l) (ok : κ → Bool) {fuel : Nat} (hf : l.length < fuel) :
    search p.next ok fuel (p.next none) = some (l.find? ok) := h.seg.search ok hf

omit [DecidableEq κ] in
theorem Linked.search_prev (h : Linked p l) (ok : κ → Bool) {fuel : Nat} (hf : l.length < fuel) :
    search p.prev ok fuel (p.prev none) = some (l.reverse.find? ok) :=
  h.seg.reverse.search ok (by simpa using hf)

end Xv6.Circle
