import Xv6.Lib.Bytes

/-!
# The two `memmove`

The kernel's `memmove` (`string.c`) looks at how the regions lie and copies from the end when the
destination begins inside the source. The user library's (`ulib.c`) always copies from the beginning.
-/

open Xv6.Bytes Function

namespace Xv6.Ulib

/-- `while(n-- > 0) *d++ = *s++;` -/
def copyUp (m : Mem) (d s : Nat) : Nat → Mem
  | 0 => m
  | n + 1 => copyUp (Function.update m d (m s)) (d + 1) (s + 1) n

/-- `while(n-- > 0) *--d = *--s;` -/
def copyDown (m : Mem) (d s : Nat) : Nat → Mem
  | 0 => m
  | n + 1 => copyDown (Function.update m (d - 1) (m (s - 1))) (d - 1) (s - 1) n

/-- `memmove` of `string.c`: the memory after the call and the result. The sum `s + n` is a pointer of 32
bits. -/
def kernelMemmove (m : Mem) (dst src n : Nat) : Mem × Nat :=
  if src < dst ∧ dst < (src + n) % 2 ^ 32 then (copyDown m (dst + n) (src + n) n, dst)
  else (copyUp m dst src n, dst)

/-- `memmove` of `ulib.c`, where `n` is an `int`. -/
def memmove (m : Mem) (vdst vsrc : Nat) (n : Int) : Mem × Nat := (copyUp m vdst vsrc n.toNat, vdst)

/-- What a move is for: the destination holds what the source held before, all else stays. -/
def moved (m : Mem) (dst src n : Nat) : Mem :=
  fun a => if dst ≤ a ∧ a < dst + n then m (src + (a - dst)) else m a

variable {m : Mem} {d s n : Nat}

theorem moved_update_low (h : d ≤ s ∨ s + n < d) :
    moved (update m d (m s)) (d + 1) (s + 1) n = moved m d s (n + 1) := by
  funext a
  unfold moved
  by_cases ha : a = d
  · subst ha
    rw [if_neg (by omega), if_pos (by omega), update_self, Nat.sub_self, Nat.add_zero]
  by_cases hin : d + 1 ≤ a ∧ a < d + 1 + n
  · rw [if_pos hin, if_pos (by omega), update_of_ne (by omega)]
    congr 1
    omega
  · rw [if_neg hin, if_neg (by omega), update_of_ne ha]

theorem moved_update_high (h : s ≤ d) :
    moved (update m (d + n) (m (s + n))) d s n = moved m d s (n + 1) := by
  funext a
  unfold moved
  by_cases ha : a = d + n
  · subst ha
    rw [if_neg (by omega), if_pos (by omega), update_self, Nat.add_sub_cancel_left]
  by_cases hin : d ≤ a ∧ a < d + n
  · rw [if_pos hin, if_pos (by omega), update_of_ne (by omega)]
  · rw [if_neg hin, if_neg (by omega), update_of_ne ha]

theorem moved_zero : moved m d s 0 = m := by
  funext a
  exact if_neg (by omega)

theorem copyUp_eq_moved (h : d ≤ s ∨ s + n ≤ d) : copyUp m d s n = moved m d s n := by
  induction n generalizing m d s with
  | zero => exact moved_zero.symm
  | succ n ih => rw [copyUp, ih (by omega), moved_update_low (by omega)]

theorem copyDown_eq_moved (h : s ≤ d) : copyDown m (d + n) (s + n) n = moved m d s n := by
  induction n generalizing m with
  | zero => exact moved_zero.symm
  | succ n ih =>
    rw [copyDown, show d + (n + 1) - 1 = d + n by omega, show s + (n + 1) - 1 = s + n by omega, ih,
      moved_update_high h]

theorem kernelMemmove_eq (hs : s + n ≤ 2 ^ 32) (hd : d + n ≤ 2 ^ 32) :
    kernelMemmove m d s n = (moved m d s n, d) := by
  unfold kernelMemmove
  split
  next h => rw [copyDown_eq_moved (Nat.le_of_lt h.1)]
  next h =>
    -- A source below the destination ends below `2 ^ 32`, so the sum of the test did not wrap.
    rw [copyUp_eq_moved]
    by_cases hlt : s < d
    · rw [Nat.mod_eq_of_lt (by omega)] at h
      omega
    · omega

end Xv6.Ulib
