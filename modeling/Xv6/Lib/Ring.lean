import Mathlib

/-!
# Ring buffers

A queue in an array of `n` cells: element `j` is in cell `(start + j) % n`. `start` may be a counter
that wraps around, as long as `n` divides the number of its values.
-/

open Function List

namespace Xv6.Ring

variable {α : Type} {n start start' k : Nat} {data : Nat → α}

/-- The `k` elements from `start` on. -/
def contents (n : Nat) (data : Nat → α) (start k : Nat) : List α :=
  (List.range k).map fun j => data ((start + j) % n)

theorem contents_congr (h : start ≡ start' [MOD n]) : contents n data start k = contents n data start' k :=
  map_congr_left fun j _ => congrArg data (h.add_right j)

/-- Two of any `n` cells in a row are different. -/
theorem cell_ne {i j : Nat} (hij : i < j) (hj : j < n) : (start + i) % n ≠ (start + j) % n := by
  intro h
  have hmod : i ≡ j [MOD n] := Nat.ModEq.add_left_cancel' start h
  have := Nat.ModEq.eq_of_lt_of_lt hmod (by omega) hj
  omega

theorem contents_succ :
    contents n data start (k + 1) = contents n data start k ++ [data ((start + k) % n)] := by
  rw [contents, range_succ, map_append, map_singleton]
  rfl

theorem take_contents {m : Nat} (h : k ≤ m) : (contents n data start m).take k = contents n data start k := by
  rw [contents, ← map_take, take_range, min_eq_left h]
  rfl

theorem contents_push (hk : k < n) (x : α) :
    contents n (update data ((start + k) % n) x) start (k + 1) = contents n data start k ++ [x] := by
  rw [contents_succ, update_self]
  congr 1
  refine map_congr_left fun j hj => ?_
  rw [update_of_ne (cell_ne (mem_range.mp hj) hk)]

theorem contents_pop : contents n data start (k + 1) = data (start % n) :: contents n data (start + 1) k := by
  unfold contents
  rw [range_succ_eq_map, map_cons, map_map, Nat.add_zero]
  congr 1
  refine map_congr_left fun j _ => ?_
  simp only [comp_apply, Nat.succ_eq_add_one, Nat.add_assoc, Nat.add_comm 1]

end Xv6.Ring
