import Xv6.Disk.Rdwr
import Xv6.Lib.Table

/-!
# Names and entries

A name is what comes before its NUL, at most `DIRSIZ` bytes of it. `strncmp` compares two of them and
`strncpy` stores one. The bytes of a directory are a table with the names as its keys.
-/

open Xv6.Bytes Function List

namespace Xv6.Disk

variable {p q t : Mem} {n i j k v : Nat} {bs : List UInt8} {de : Dirent}

/-! ## Names -/

/-- The string at `i`, at most `n` bytes of it. -/
def cstr (p : Mem) : Nat → Nat → List UInt8
  | 0, _ => []
  | n + 1, i => if p i = 0 then [] else p i :: cstr p n (i + 1)

/-- The name in a buffer. -/
def key (p : Mem) : List UInt8 := cstr p DIRSIZ 0

theorem cstr_congr (h : ∀ j, i ≤ j → j < i + n → p j = q j) : cstr p n i = cstr q n i := by
  induction n generalizing i with
  | zero => rfl
  | succ n ih =>
    rw [cstr, cstr, h i (Nat.le_refl _) (by omega), ih fun j h1 h2 => h j (by omega) (by omega)]

theorem strncmp_eq_zero : strncmp p q n i = 0 ↔ cstr p n i = cstr q n i := by
  induction n generalizing i with
  | zero => simp [strncmp, cstr]
  | succ n ih =>
    rw [strncmp, cstr, cstr]
    by_cases hp : p i = 0
    · rw [if_neg fun h => h.1 hp, if_pos hp, hp]
      by_cases hq : q i = 0
      · rw [if_pos hq, hq]
        simp
      · rw [if_neg hq]
        have hne : (q i).toNat ≠ 0 := fun hc => hq (UInt8.toNat_inj.mp hc)
        simp only [nil_eq, reduceCtorEq, iff_false]
        change ((0 : Nat) : Int) - _ ≠ 0
        omega
    · by_cases hpq : p i = q i
      · rw [if_pos ⟨hp, hpq⟩, if_neg hp, if_neg (hpq ▸ hp), ih, hpq]
        simp
      · rw [if_neg fun h => hpq h.2, if_neg hp]
        have hne : (p i).toNat ≠ (q i).toNat := fun hc => hpq (UInt8.toNat_inj.mp hc)
        refine ⟨fun h => absurd h (by omega), fun h => ?_⟩
        split at h
        · cases h
        · exact absurd (List.cons.inj h).1 hpq

theorem namecmp_eq_zero : namecmp p q = 0 ↔ key p = key q := strncmp_eq_zero

theorem fill_of_lt (h : j < i) : fill p n i j = p j := by
  induction n generalizing p i with
  | zero => rfl
  | succ n ih => rw [fill, ih (by omega), update_of_ne (by omega)]

theorem strncpy_of_lt (h : j < i) : strncpy p t n i j = p j := by
  induction n generalizing p i with
  | zero => rfl
  | succ n ih =>
    rw [strncpy]
    split
    · rw [ih (by omega), update_of_ne (by omega)]
    · rw [fill_of_lt (by omega), update_of_ne (by omega)]

theorem cstr_strncpy : cstr (strncpy p t n i) n i = cstr t n i := by
  induction n generalizing p i with
  | zero => rfl
  | succ n ih =>
    by_cases ht : t i = 0
    · rw [strncpy, if_neg (not_not.mpr ht), cstr, cstr, if_pos ht, fill_of_lt (Nat.lt_succ_self i),
        update_self, if_pos rfl]
    · rw [strncpy, if_pos ht, cstr, cstr, ih, strncpy_of_lt (Nat.lt_succ_self i), update_self]

/-! ## Entries -/

@[simp] theorem length_bytes (de : Dirent) : de.bytes.length = DENT := by simp [Dirent.bytes, DIRSIZ, DENT]

theorem getDirent_bytes (h : de.inum < 0x10000) :
    (getDirent de.bytes).inum = de.inum ∧ key (getDirent de.bytes).name = key de.name := by
  refine ⟨?_, cstr_congr fun j _ hj => ?_⟩
  · have h1 : (UInt8.ofNat de.inum).toNat = de.inum % 256 := UInt8.toNat_ofNat'
    have h2 : (UInt8.ofNat (de.inum / 256)).toNat = de.inum / 256 % 256 := UInt8.toNat_ofNat'
    simp only [getDirent, Dirent.bytes, cons_append, nil_append, getD_cons_zero, getD_cons_succ]
    omega
  · rw [Nat.zero_add] at hj
    simp [getDirent, Dirent.bytes, getD_eq_getElem?_getD, hj]

/-- The bytes of the entry `j`. -/
def chunk (bs : List UInt8) (j : Nat) : List UInt8 := (bs.drop (DENT * j)).take DENT

/-- The entry `j`: empty, or a name with the number of its inode. -/
def cell (bs : List UInt8) (j : Nat) : Option (List UInt8 × Nat) :=
  let de := getDirent (chunk bs j)
  if de.inum = 0 then none else some (key de.name, de.inum)

/-- The number of entries. -/
def count (bs : List UInt8) : Nat := bs.length / DENT

/-- The directory's bytes with `src` at the entry `v`. -/
def putEntry (bs : List UInt8) (v : Nat) (src : List UInt8) : List UInt8 :=
  bs.take (DENT * v) ++ src ++ bs.drop (DENT * v + src.length)

section Put

variable {src : List UInt8} {x : Option (List UInt8 × Nat)} (hsrc : src.length = DENT) (hbs : bs.length % DENT = 0) (hv : v ≤ count bs)

include hsrc hbs hv

theorem length_putEntry : (putEntry bs v src).length = DENT * max (count bs) (v + 1) := by
  simp only [putEntry, length_append, length_take, length_drop, hsrc, count, DENT] at *
  omega

theorem count_putEntry : count (putEntry bs v src) = max (count bs) (v + 1) := by
  rw [count, length_putEntry hsrc hbs hv, Nat.mul_div_cancel_left _ (by decide)]

theorem chunk_putEntry_self : chunk (putEntry bs v src) v = src := by
  have hlen : (bs.take (DENT * v)).length = DENT * v := by
    rw [length_take]
    simp only [count, DENT] at *
    omega
  rw [chunk, putEntry, append_assoc, drop_append_of_le_length (by omega), drop_of_length_le (by omega),
    nil_append, take_append_of_le_length (by omega), take_of_length_le (by omega)]

theorem chunk_putEntry_of_ne (h : j ≠ v) : chunk (putEntry bs v src) j = chunk bs j := by
  have hle : DENT * v ≤ bs.length := by
    simp only [count, DENT] at *
    omega
  refine ext_getElem? fun i => ?_
  simp only [chunk, putEntry, List.getElem?_take, List.getElem?_drop, List.getElem?_append, length_append,
    length_take, Nat.min_eq_left hle, hsrc]
  by_cases hi : i < DENT
  · simp only [hi, if_true]
    by_cases hjv : j < v
    · have h1 : DENT * j + i < DENT * v := by
        simp only [DENT] at *
        omega
      rw [if_pos (by omega), if_pos h1, if_pos h1]
    · have h1 : DENT * v + DENT ≤ DENT * j := by
        simp only [DENT] at *
        omega
      rw [if_neg (by omega)]
      congr 1
      omega
  · simp only [hi, if_false]

theorem cell_putEntry (hv' : cell (putEntry bs v src) v = x) : cell (putEntry bs v src) = update (cell bs) v x := by
  funext j
  by_cases h : j = v
  · subst h
    rw [update_self, hv']
  · rw [update_of_ne h, cell, chunk_putEntry_of_ne hsrc hbs hv h, cell]

end Put

theorem cell_link (name : Mem) (hi : i ≠ 0) (hi' : i < 0x10000) (hbs : bs.length % DENT = 0) (hv : v ≤ count bs) :
    cell (putEntry bs v (Dirent.bytes ⟨i, strncpy (fun _ => 0) name DIRSIZ 0⟩)) =
      update (cell bs) v (some (key name, i)) := by
  obtain ⟨h1, h2⟩ := @getDirent_bytes ⟨i, strncpy (fun _ => 0) name DIRSIZ 0⟩ hi'
  refine cell_putEntry (length_bytes _) hbs hv ?_
  rw [cell, chunk_putEntry_self (length_bytes _) hbs hv]
  rw [h1, if_neg hi, h2, key, cstr_strncpy, key]

theorem cell_zero (hbs : bs.length % DENT = 0) (hv : v ≤ count bs) :
    cell (putEntry bs v (List.replicate DENT 0)) = update (cell bs) v none := by
  refine cell_putEntry length_replicate hbs hv ?_
  rw [cell, chunk_putEntry_self length_replicate hbs hv]
  exact if_pos (by decide)

end Xv6.Disk
