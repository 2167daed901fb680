import Xv6.Disk.Dir

/-!
# Paths

`skipelem` takes a path apart at its slashes, and `namex` follows the elements from directory to
directory.
-/

open Xv6.Bytes Xv6.Cmd Function List

namespace Xv6.Disk

variable {cf : Conf} {block : Nat → Block} {s0 s s' s1 : State} {L hs : List Slot} {q r ip : Slot} {i j k n : Nat}
  {E : Stop → Prop} {name p : Mem} {path l : List UInt8} {np : Bool} {c : List UInt8} {cs : List (List UInt8)}

/-! ## The elements of a path -/

/-- The non-empty parts between the slashes, cut to the length of a name. -/
def components (path : List UInt8) : List (List UInt8) :=
  ((path.splitOn slash).filter (· ≠ [])).map (List.take DIRSIZ)

@[simp] theorem components_nil : components [] = [] := by simp [components]

theorem components_append_slash (x y : List UInt8) : components (x ++ slash :: y) = components x ++ components y := by
  rw [components, splitOn_append_cons_self, filter_append, map_append]
  rfl

theorem components_slash (path : List UInt8) : components (slash :: path) = components path := by
  have := components_append_slash [] path
  rwa [nil_append, components_nil] at this

theorem components_of_name (hne : l ≠ []) (h : slash ∉ l) : components l = [l.take DIRSIZ] := by
  rw [components, splitOn_eq_singleton h]
  simp [hne]

theorem components_skipSlashes (path : List UInt8) : components (skipSlashes path) = components path := by
  induction path with
  | nil => rfl
  | cons a path ih =>
    rw [skipSlashes]
    split
    · next h => rw [ih, h, components_slash]
    · rfl

theorem skipSlashes_cases (path : List UInt8) :
    skipSlashes path = [] ∨ ∃ a rest, skipSlashes path = a :: rest ∧ a ≠ slash := by
  induction path with
  | nil => exact .inl rfl
  | cons a path ih =>
    rw [skipSlashes]
    split
    · exact ih
    · next h => exact .inr ⟨a, path, rfl, h⟩

theorem skipSlashes_suffix (path : List UInt8) : skipSlashes path <:+ path := by
  induction path with
  | nil => exact suffix_refl _
  | cons a path ih =>
    rw [skipSlashes]
    split
    · exact ih.trans (suffix_cons a path)
    · exact suffix_refl _

theorem skipName_split (path : List UInt8) (h0 : 0 ∉ path) :
    ∃ e, path = e ++ skipName path ∧ slash ∉ e ∧ (skipName path = [] ∨ ∃ rest, skipName path = slash :: rest) := by
  induction path with
  | nil => exact ⟨[], rfl, not_mem_nil, .inl rfl⟩
  | cons a path ih =>
    rw [mem_cons, not_or] at h0
    rw [skipName]
    split
    · next h =>
      obtain ⟨e, he, hs, hrest⟩ := ih h0.2
      refine ⟨a :: e, by rw [cons_append, ← he], ?_, hrest⟩
      rw [mem_cons, not_or]
      exact ⟨h.1.symm, hs⟩
    · next h =>
      have ha : a = slash := by
        by_contra hne
        exact h ⟨hne, Ne.symm h0.1⟩
      exact ⟨[], rfl, not_mem_nil, .inr ⟨path, by rw [ha]⟩⟩

theorem components_of_start {a : UInt8} (h0 : 0 ∉ path) (hs : path = a :: l) (ha : a ≠ slash) :
    ∃ e, path = e ++ skipName path ∧ e ≠ [] ∧ components path = e.take DIRSIZ :: components (skipName path) := by
  obtain ⟨e, he, hslash, hrest⟩ := skipName_split path h0
  have hne : e ≠ [] := by
    rintro rfl
    rw [nil_append] at he
    rcases hrest with h | ⟨t, h⟩
    · rw [← he, hs] at h
      cases h
    · rw [← he, hs] at h
      exact ha (List.cons.inj h).1
  refine ⟨e, he, hne, ?_⟩
  rcases hrest with h | ⟨t, h⟩
  · rw [h, append_nil] at he
    rw [he, components_of_name hne hslash, ← he, h, components_nil]
  · rw [h] at he ⊢
    rw [he, components_append_slash, components_of_name hne hslash, components_slash, singleton_append]

theorem cstr_of_list (h0 : 0 ∉ l) (hp : ∀ j < l.length, p (i + j) = l.getD j 0) (hlen : l.length ≤ n)
    (hend : l.length < n → p (i + l.length) = 0) : cstr p n i = l := by
  induction l generalizing n i with
  | nil =>
    cases n with
    | zero => rfl
    | succ n => exact if_pos (hend (Nat.succ_pos n))
  | cons a l ih =>
    rw [mem_cons, not_or] at h0
    obtain ⟨n, rfl⟩ : ∃ m, n = m + 1 := ⟨n - 1, by rw [length_cons] at hlen; omega⟩
    have hi : p i = a := hp 0 (Nat.succ_pos _)
    rw [cstr, hi, if_neg (Ne.symm h0.1), ih h0.2 (fun j hj => ?_) (Nat.le_of_succ_le_succ hlen) fun hlt => ?_]
    · have := hp (j + 1) (Nat.succ_lt_succ hj)
      rwa [show i + (j + 1) = i + 1 + j by omega] at this
    · have := hend (Nat.succ_lt_succ hlt)
      rwa [length_cons, show i + (l.length + 1) = i + 1 + l.length by omega] at this

theorem key_copyName {e rest : List UInt8} (h0 : 0 ∉ e) (name : Mem) :
    key (if DIRSIZ ≤ e.length then copyName name (e ++ rest) DIRSIZ
      else update (copyName name (e ++ rest) e.length) e.length 0) = e.take DIRSIZ := by
  have htake : 0 ∉ e.take DIRSIZ := fun hc => h0 (mem_of_mem_take hc)
  have hget : ∀ j < e.length, (e ++ rest).getD j 0 = e.getD j 0 := fun j hj => getD_append _ _ _ _ hj
  refine cstr_of_list htake (fun j hj => ?_) (by rw [length_take]; omega) fun hlt => ?_
  · rw [length_take] at hj
    have hj' : (e.take DIRSIZ).getD j 0 = e.getD j 0 := by
      rw [getD_eq_getElem?_getD, List.getElem?_take_of_lt (by omega), getD_eq_getElem?_getD]
    rw [Nat.zero_add, hj']
    split
    · rw [copyName, if_pos (by omega), hget j (by omega)]
    · rw [update_of_ne (by omega), copyName, if_pos (by omega), hget j (by omega)]
  · rw [length_take] at hlt ⊢
    rw [if_neg (by omega), Nat.zero_add, Nat.min_eq_right (by omega), update_self]

theorem head_eq_zero (h0 : 0 ∉ path) : head path = 0 ↔ path = [] := by
  cases path with
  | nil => simp [head]
  | cons a path =>
    rw [mem_cons, not_or] at h0
    simp [head, Ne.symm h0.1]

theorem skipelem_spec (h0 : 0 ∉ path) (name : Mem) :
    (skipelem path name = none ∧ components path = []) ∨
    ∃ rest name', skipelem path name = some (rest, name') ∧ components path = key name' :: components rest ∧ 0 ∉ rest ∧
      rest.length < path.length ∧ (head rest = 0 ↔ components rest = []) := by
  have hs0 : 0 ∉ skipSlashes path := fun hc => h0 ((skipSlashes_suffix path).subset hc)
  have hlen := (skipSlashes_suffix path).length_le
  rw [← components_skipSlashes path, skipelem]
  rcases skipSlashes_cases path with hs | ⟨a, t, hs, ha⟩
  · rw [hs]
    exact .inl ⟨rfl, components_nil⟩
  · have hne : head (skipSlashes path) ≠ 0 := by
      rw [Ne, head_eq_zero hs0, hs]
      exact cons_ne_nil _ _
    refine .inr ?_
    dsimp only
    rw [if_neg hne]
    obtain ⟨e, he, hne', hcomp⟩ := components_of_start hs0 hs ha
    obtain ⟨s, hs'⟩ : ∃ s, s = skipSlashes path := ⟨_, rfl⟩
    obtain ⟨rest, hr⟩ : ∃ rest, rest = skipName s := ⟨_, rfl⟩
    rw [← hs'] at he hcomp hs0 hlen ⊢
    rw [← hr] at he hcomp ⊢
    have he0 : 0 ∉ e := fun hc => hs0 (he ▸ mem_append_left _ hc)
    have hrest0 : 0 ∉ skipSlashes rest := fun hc =>
      hs0 (he ▸ mem_append_right _ ((skipSlashes_suffix rest).subset hc))
    have hlens : s.length = e.length + rest.length := by rw [he, length_append]
    have helen : s.length - rest.length = e.length := by omega
    refine ⟨_, _, rfl, ?_, hrest0, ?_, ?_⟩
    · rw [helen, hcomp, components_skipSlashes, he, key_copyName he0 name]
    · have h1 := (skipSlashes_suffix rest).length_le
      have h2 : 0 < e.length := length_pos_of_ne_nil hne'
      omega
    · rw [head_eq_zero hrest0]
      refine ⟨fun h => by rw [h, components_nil], fun h => ?_⟩
      rcases skipSlashes_cases rest with h' | ⟨b, t', h', hb⟩
      · exact h'
      · obtain ⟨e', -, -, hcomp'⟩ := components_of_start hrest0 h' hb
        rw [hcomp'] at h
        cases h

end Xv6.Disk
