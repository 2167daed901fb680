import Mathlib

/-!
# Addresses

`memlayout.h` and the address part of `mmu.h`. An address is a number below `2 ^ 32`, and a page
is its address divided by `PGSIZE`.
-/

namespace Xv6

abbrev PGSIZE : Nat := 4096
abbrev NPDENTRIES : Nat := 1024

abbrev EXTMEM : Nat := 0x100000
abbrev PHYSTOP : Nat := 0xE000000
abbrev DEVSPACE : Nat := 0xFE000000
abbrev KERNBASE : Nat := 0x80000000
abbrev KERNLINK : Nat := 0x80100000

/-- 32-bit wraparound. -/
def u32 (n : Nat) : Nat := n % 0x100000000

def V2P (a : Nat) : Nat := u32 (a + 0x100000000 - KERNBASE)

def P2V (a : Nat) : Nat := u32 (a + KERNBASE)

/-- `PGROUNDUP`, on 32 bits. -/
def pgroundup (sz : Nat) : Nat := u32 (sz + PGSIZE - 1) / PGSIZE * PGSIZE

def pgrounddown (a : Nat) : Nat := a / PGSIZE * PGSIZE

def pdx (va : Nat) : Nat := va / 0x400000 % 1024

def ptx (va : Nat) : Nat := va / 0x1000 % 1024

/-- `PGADDR(d, 0, 0)` -/
def pgaddr (d : Nat) : Nat := u32 (d * 0x400000)

/-! ## Arithmetic -/

theorem u32_of_lt {n : Nat} (h : n < 0x100000000) : u32 n = n := Nat.mod_eq_of_lt h

theorem u32_lt (n : Nat) : u32 n < 0x100000000 := Nat.mod_lt _ (by decide)

theorem pgroundup_of_le {n : Nat} (h : n ≤ KERNBASE) :
    pgroundup n = (n + 4095) / 4096 * 4096 := by
  simp only [pgroundup, u32, PGSIZE, KERNBASE] at *
  omega

theorem le_pgroundup {n : Nat} (h : n ≤ KERNBASE) : n ≤ pgroundup n := by
  rw [pgroundup_of_le h]; omega

theorem pgroundup_le {n : Nat} (h : n ≤ KERNBASE) : pgroundup n ≤ KERNBASE := by
  rw [pgroundup_of_le h]
  simp only [KERNBASE] at *
  omega

theorem pgroundup_mod (n : Nat) : pgroundup n % PGSIZE = 0 := Nat.mul_mod_left _ _

theorem same_entry {a b : Nat} (ha : a < 0x100000000) (hb : b < 0x100000000) :
    pdx a = pdx b ∧ ptx a = ptx b ↔ a / PGSIZE = b / PGSIZE := by
  simp only [pdx, ptx, PGSIZE]
  omega

end Xv6
