import Mathlib

/-!
# Numbers in memory

Little-endian numbers of `k` bytes in a memory of bytes.
-/

open Function

namespace Xv6.Bytes

abbrev Mem := Nat → UInt8

/-- The number in the `k` bytes from `a` on. -/
def load (m : Mem) (a : Nat) : Nat → Nat
  | 0 => 0
  | k + 1 => (m a).toNat + 256 * load m (a + 1) k

/-- `v` into the `k` bytes from `a` on. -/
def store (m : Mem) (a v : Nat) : Nat → Mem
  | 0 => m
  | k + 1 => store (Function.update m a (UInt8.ofNat v)) (a + 1) (v / 256) k

variable {m m' : Mem} {a b v k n : Nat}

theorem load_congr (h : ∀ b, a ≤ b → b < a + k → m' b = m b) : load m' a k = load m a k := by
  induction k generalizing a with
  | zero => rfl
  | succ k ih =>
    rw [load, load, h a (Nat.le_refl _) (by omega), ih fun b hb hlt => h b (by omega) (by omega)]

theorem load_lt (m : Mem) (a k : Nat) : load m a k < 256 ^ k := by
  induction k generalizing a with
  | zero => exact Nat.one_pos
  | succ k ih =>
    have h := ih (a + 1)
    have hb : (m a).toNat < 256 := (m a).toNat_lt
    rw [load, Nat.pow_succ]
    omega

/-- The number determines its bytes. -/
theorem load_inj (h : load m' a k = load m a k) (h1 : a ≤ b) (h2 : b < a + k) : m' b = m b := by
  induction k generalizing a with
  | zero => omega
  | succ k ih =>
    have hb := (m a).toNat_lt
    have hb' := (m' a).toNat_lt
    rw [load, load] at h
    by_cases hab : b = a
    · subst hab
      exact UInt8.toNat_inj.mp (by omega)
    · exact ih (a := a + 1) (by omega) (by omega) (by omega)

/-- Bytes outside stay. -/
theorem store_apply_of_out (h : b < a ∨ a + k ≤ b) : store m a v k b = m b := by
  induction k generalizing m a v with
  | zero => rfl
  | succ k ih =>
    have hne : b ≠ a := by
      rintro rfl
      omega
    rw [store, ih (by omega), update_of_ne hne]

@[simp] theorem load_store : load (store m a v k) a k = v % 256 ^ k := by
  induction k generalizing m a v with
  | zero => rw [Nat.pow_zero, Nat.mod_one]; rfl
  | succ k ih =>
    have hbyte : (UInt8.ofNat v).toNat = v % 256 := UInt8.toNat_ofNat'
    rw [load, store, ih, store_apply_of_out (.inl (Nat.lt_succ_self a)), update_self, hbyte,
      Nat.pow_succ, Nat.mul_comm (256 ^ k), Nat.mod_mul]

theorem load_store_of_out (h : b + k ≤ a ∨ a + n ≤ b) : load (store m a v n) b k = load m b k :=
  load_congr fun c hc hlt => store_apply_of_out (by omega)

theorem load_update_of_out (x : UInt8) (h : b < a ∨ a + k ≤ b) :
    load (update m b x) a k = load m a k :=
  load_congr fun c hc hlt => update_of_ne (by omega) _ _

end Xv6.Bytes
