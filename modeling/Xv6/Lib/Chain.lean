import Mathlib

/-!
# Singly linked chains

`Chain next h l` says that the links `next`, followed from `h`, visit the items of `l` in order and
end. Links that run in a circle have no chain.
-/

open Function List

namespace Xv6.Link

variable {ι : Type}

def Chain (next : ι → Option ι) : Option ι → List ι → Prop
  | h, [] => h = none
  | h, a :: l => h = some a ∧ Chain next (next a) l

variable {next : ι → Option ι} {h : Option ι} {l l' : List ι} {a : ι}

/-- The links decide what is visited. -/
theorem Chain.unique (hl : Chain next h l) (hl' : Chain next h l') : l = l' := by
  induction l generalizing h l' with
  | nil =>
    cases l' with
    | nil => rfl
    | cons b l' => exact absurd (hl.symm.trans hl'.1) (by simp)
  | cons a l ih =>
    cases l' with
    | nil => exact absurd (hl'.symm.trans hl.1) (by simp)
    | cons b l' =>
      obtain rfl := Option.some.inj (hl.1.symm.trans hl'.1)
      rw [ih hl.2 hl'.2]

theorem Chain.nil_iff (hl : Chain next h l) : h = none ↔ l = [] := by
  cases l with
  | nil => exact iff_of_true hl rfl
  | cons a l => exact iff_of_false (by simp [hl.1]) (by simp)

/-- The chain that starts at an item of a chain. -/
theorem Chain.suffix (hl : Chain next h l) (ha : a ∈ l) :
    ∃ t, Chain next (some a) (a :: t) ∧ t.length < l.length := by
  induction l generalizing h with
  | nil => cases ha
  | cons b l ih =>
    rcases mem_cons.mp ha with rfl | ha
    · exact ⟨l, ⟨rfl, hl.2⟩, Nat.lt_succ_self _⟩
    · obtain ⟨t, ht, hlt⟩ := ih hl.2 ha
      exact ⟨t, ht, Nat.lt_succ_of_lt hlt⟩

/-- A chain visits nothing twice: from an item it would come back to, it would never end. -/
theorem Chain.nodup (hl : Chain next h l) : l.Nodup := by
  induction l generalizing h with
  | nil => exact nodup_nil
  | cons a l ih =>
    refine nodup_cons.mpr ⟨fun ha => ?_, ih hl.2⟩
    obtain ⟨t, ht, hlt⟩ := hl.2.suffix ha
    have : l = t := hl.2.unique ht.2
    rw [this] at hlt
    exact Nat.lt_irrefl _ hlt

variable [DecidableEq ι]

/-- A link that is not followed can be anything. -/
theorem chain_update (x : Option ι) (ha : a ∉ l) :
    Chain (update next a x) h l ↔ Chain next h l := by
  induction l generalizing h with
  | nil => exact Iff.rfl
  | cons b l ih =>
    rw [mem_cons, not_or] at ha
    simp only [Chain, update_of_ne (Ne.symm ha.1), ih ha.2]

/-- Putting `a` in front of `h`. When `a` is on the chain already, there is no chain afterwards. -/
theorem chain_push : Chain (update next a h) (some a) l' ↔
    ∃ l, l' = a :: l ∧ a ∉ l ∧ Chain next h l := by
  constructor
  · intro hl'
    have hnd := hl'.nodup
    cases l' with
    | nil => cases hl'
    | cons b l =>
      obtain rfl := Option.some.inj hl'.1
      have ha := (nodup_cons.mp hnd).1
      have hl := hl'.2
      rw [update_self, chain_update _ ha] at hl
      exact ⟨l, rfl, ha, hl⟩
  · rintro ⟨l, rfl, ha, hl⟩
    refine ⟨rfl, ?_⟩
    rw [update_self, chain_update _ ha]
    exact hl

/-! ## Queues -/

/-- The last item from `a` on, in at most `k` steps. -/
def walk (next : ι → Option ι) : Nat → ι → Option ι
  | 0, _ => none
  | k + 1, a =>
    match next a with
    | none => some a
    | some b => walk next k b

/-- The links and the head after `a` is put at the end. -/
def enqueue (next : ι → Option ι) (k : Nat) (h : Option ι) (a : ι) : Option ((ι → Option ι) × Option ι) :=
  match h with
  | none => some (Function.update next a none, some a)
  | some b =>
    (walk (Function.update next a none) k b).map fun z =>
      (Function.update (Function.update next a none) z (some a), some b)

theorem Chain.concat {b : ι} {k : Nat} (hl : Chain next (some b) (b :: l)) (hk : l.length < k) (ha : a ∉ b :: l)
    (hend : next a = none) : ∃ z ∈ b :: l, walk next k b = some z ∧
      Chain (update next z (some a)) (some b) (b :: l ++ [a]) := by
  induction l generalizing b k with
  | nil =>
    obtain ⟨k, rfl⟩ : ∃ j, k = j + 1 := ⟨k - 1, by rw [length_nil] at hk; omega⟩
    have hb : next b = none := hl.2
    have hne : a ≠ b := fun h => ha (by simp [h])
    exact ⟨b, by simp, by rw [walk, hb], rfl, by rw [update_self], by rw [update_of_ne hne]; exact hend⟩
  | cons c l ih =>
    obtain ⟨k, rfl⟩ : ∃ j, k = j + 1 := ⟨k - 1, by omega⟩
    have hnd := hl.nodup
    have hb : next b = some c := hl.2.1
    rw [mem_cons, not_or] at ha
    obtain ⟨z, hz, hwalk, hchain⟩ := ih ⟨rfl, hl.2.2⟩ (Nat.lt_of_succ_lt_succ hk) ha.2
    have hne : b ≠ z := fun h => (nodup_cons.mp hnd).1 (h ▸ hz)
    refine ⟨z, mem_cons_of_mem b hz, by rw [walk, hb]; exact hwalk, rfl, ?_⟩
    rw [update_of_ne hne, hb]
    exact hchain

theorem enqueue_chain {k : Nat} (hl : Chain next h l) (ha : a ∉ l) (hk : l.length ≤ k) :
    ∃ next' h', enqueue next k h a = some (next', h') ∧ Chain next' h' (l ++ [a]) ∧ (h' = some a ↔ l = []) := by
  cases l with
  | nil =>
    obtain rfl : h = none := hl
    exact ⟨_, _, rfl, ⟨rfl, by rw [update_self]; rfl⟩, by simp⟩
  | cons b l =>
    obtain ⟨rfl, hl'⟩ := hl
    have hchain : Chain (update next a none) (some b) (b :: l) := (chain_update none ha).mpr ⟨rfl, hl'⟩
    obtain ⟨z, -, hwalk, hnew⟩ := hchain.concat (Nat.lt_of_lt_of_le (Nat.lt_succ_self _) hk) ha (update_self ..)
    refine ⟨_, _, by rw [enqueue, hwalk]; rfl, hnew, ?_⟩
    have hne : b ≠ a := fun h => ha (by simp [h])
    simp [hne]

end Xv6.Link
