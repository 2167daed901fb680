import Xv6.Disk.Code

/-!
# Views of the disk

The bytes of the blocks as a bitmap and as inodes, and what one write changes of them.
-/

open Xv6.Bytes Xv6.Cmd Function

namespace Xv6.Disk

variable {cf : Conf} {s s' : State} {b c i j o : Nat} {data : Block} {block : Nat → Block} {d : Dinode}

/-! ## Bits -/

theorem toNat_mask (i : Nat) : (mask i).toNat = 2 ^ (i % 8) := by
  have h : ∀ k < 8, ((1 : UInt8) <<< UInt8.ofNat k).toNat = 2 ^ k := by decide
  exact h _ (Nat.mod_lt _ (by decide))

theorem and_mask (x : UInt8) (i : Nat) : x &&& mask i = 0 ↔ x.toNat.testBit (i % 8) = false := by
  rw [← UInt8.toNat_inj, UInt8.toNat_and, toNat_mask, Nat.and_two_pow]
  cases x.toNat.testBit (i % 8) <;> simp

theorem testBit_or_mask (x : UInt8) (i j : Nat) :
    (x ||| mask i).toNat.testBit (j % 8) = (x.toNat.testBit (j % 8) || decide (i % 8 = j % 8)) := by
  rw [UInt8.toNat_or, toNat_mask, Nat.testBit_or, Nat.testBit_two_pow]

/-! ## The bitmap -/

/-- The bit of `b` in the bitmap is set. -/
def Used (cf : Conf) (block : Nat → Block) (b : Nat) : Prop :=
  (block (cf.bblock b) (b % BPB / 8)).toNat.testBit (b % 8) = true

instance (cf : Conf) (block : Nat → Block) (b : Nat) : Decidable (Used cf block b) := inferInstanceAs (Decidable (_ = _))

/-- The bitmap block with the bit of `b` set. -/
def setBit (data : Block) (b : Nat) : Block :=
  Function.update data (b % BPB / 8) (data (b % BPB / 8) ||| mask b)

def clearBit (data : Block) (b : Nat) : Block :=
  Function.update data (b % BPB / 8) (data (b % BPB / 8) &&& ~~~ mask b)

theorem same_bit (h1 : cf.bblock c = cf.bblock b) (h2 : c % BPB / 8 = b % BPB / 8) : b % 8 = c % 8 ↔ c = b := by
  simp only [Conf.bblock, BPB, BSIZE] at *
  omega

theorem used_setBit :
    Used cf (update block (cf.bblock b) (setBit (block (cf.bblock b)) b)) c ↔ c = b ∨ Used cf block c := by
  unfold Used setBit
  by_cases h1 : cf.bblock c = cf.bblock b
  · rw [h1, update_self]
    by_cases h2 : c % BPB / 8 = b % BPB / 8
    · rw [h2, update_self, testBit_or_mask, Bool.or_eq_true, decide_eq_true_eq, same_bit h1 h2]
      exact or_comm
    · rw [update_of_ne h2]
      refine ⟨.inr, ?_⟩
      rintro (rfl | h)
      · exact absurd rfl h2
      · exact h
  · rw [update_of_ne h1]
    refine ⟨.inr, ?_⟩
    rintro (rfl | h)
    · exact absurd rfl h1
    · exact h

theorem used_update (h : cf.bblock c ≠ b) : Used cf (update block b data) c ↔ Used cf block c := by
  unfold Used
  rw [update_of_ne h]

/-! ## Inodes in their block -/

/-- The numbers of the inode are those of 32-bit words. -/
structure Dinode.Fits (d : Dinode) : Prop where
  size : d.size < 0x100000000
  addrs : ∀ i, d.addrs i < 0x100000000

theorem getDinode_fits (data : Block) (o : Nat) : (getDinode data o).Fits :=
  ⟨load_lt _ _ 4, fun _ => load_lt _ _ 4⟩

theorem putAddrs_of_out (addrs : Fin (NDIRECT + 1) → Nat) (is : List (Fin (NDIRECT + 1)))
    (h : j < o + 12 ∨ o + 64 ≤ j) : putAddrs data o addrs is j = data j := by
  induction is with
  | nil => rfl
  | cons i is ih =>
    have hi : i.val < 13 := i.isLt
    rw [putAddrs, store_apply_of_out (by omega), ih]

theorem load_putAddrs (addrs : Fin (NDIRECT + 1) → Nat) {is : List (Fin (NDIRECT + 1))} {i : Fin (NDIRECT + 1)}
    (hi : i ∈ is) : load (putAddrs data o addrs is) (o + 12 + 4 * i) 4 = addrs i % 0x100000000 := by
  induction is with
  | nil => cases hi
  | cons k is ih =>
    rw [putAddrs]
    by_cases hk : i = k
    · rw [hk]
      exact load_store ..
    · have hne : i.val ≠ k.val := fun hc => hk (Fin.ext hc)
      rw [load_store_of_out (by omega), ih ((List.mem_cons.mp hi).resolve_left hk)]

theorem putDinode_of_out (d : Dinode) (h : j < o ∨ o + 64 ≤ j) : putDinode data o d j = data j := by
  unfold putDinode putShort
  rw [putAddrs_of_out _ _ (by omega), store_apply_of_out (by omega), store_apply_of_out (by omega),
    store_apply_of_out (by omega), store_apply_of_out (by omega), store_apply_of_out (by omega)]

theorem short_putShort (x : Int16) : short (putShort data o x) o = x := by
  have h : x.toUInt16.toNat % 256 ^ 2 = x.toUInt16.toNat := Nat.mod_eq_of_lt x.toUInt16.toNat_lt
  rw [short, putShort, load_store, h]
  exact Int16.toBitVec_inj.mp (by simp)

theorem short_congr {data' : Block} (h : ∀ b, o ≤ b → b < o + 2 → data' b = data b) : short data' o = short data o := by
  rw [short, short, load_congr h]

theorem short_of_out (x : Int16) {a : Nat} (h : o + 2 ≤ a ∨ a + 2 ≤ o) : short (putShort data a x) o = short data o :=
  short_congr fun b h1 h2 => store_apply_of_out (by omega)

theorem short_store_of_out {a v : Nat} (h : o + 2 ≤ a ∨ a + 4 ≤ o) : short (store data a v 4) o = short data o :=
  short_congr fun b h1 h2 => store_apply_of_out (by omega)

theorem short_putAddrs (addrs : Fin (NDIRECT + 1) → Nat) (is : List (Fin (NDIRECT + 1))) {a : Nat} (h : o + 2 ≤ a + 12) :
    short (putAddrs data a addrs is) o = short data o :=
  short_congr fun b h1 h2 => putAddrs_of_out addrs is (by omega)

theorem get_putDinode (h : d.Fits) : getDinode (putDinode data o d) o = d := by
  obtain ⟨type, major, minor, nlink, size, addrs⟩ := d
  have hsize : size % 256 ^ 4 = size := Nat.mod_eq_of_lt h.size
  unfold getDinode putDinode
  dsimp only
  simp only [Dinode.mk.injEq]
  refine ⟨?_, ?_, ?_, ?_, ?_, funext fun i => ?_⟩
  · rw [short_putAddrs _ _ (by omega), short_store_of_out (by omega), short_of_out _ (by omega),
      short_of_out _ (by omega), short_of_out _ (by omega), short_putShort]
  · rw [short_putAddrs _ _ (by omega), short_store_of_out (by omega), short_of_out _ (by omega),
      short_of_out _ (by omega), short_putShort]
  · rw [short_putAddrs _ _ (by omega), short_store_of_out (by omega), short_of_out _ (by omega), short_putShort]
  · rw [short_putAddrs _ _ (by omega), short_store_of_out (by omega), short_putShort]
  · rw [load_congr fun b h1 h2 => putAddrs_of_out addrs _ (by omega), load_store, hsize]
  · rw [load_putAddrs _ (List.mem_finRange i), Nat.mod_eq_of_lt (h.addrs i)]

theorem getDinode_congr {data' : Block} (h : ∀ b, o ≤ b → b < o + 64 → data' b = data b) :
    getDinode data' o = getDinode data o := by
  unfold getDinode
  have hs : ∀ k, k ≤ 6 → short data' (o + k) = short data (o + k) :=
    fun k hk => short_congr fun b h1 h2 => h b (by omega) (by omega)
  have h0 := hs 0 (by omega)
  rw [Nat.add_zero] at h0
  rw [h0, hs 2 (by omega), hs 4 (by omega), hs 6 (by omega), load_congr fun b h1 h2 => h b (by omega) (by omega)]
  simp only [Dinode.mk.injEq, true_and]
  funext i
  have hi : i.val < 13 := i.isLt
  exact load_congr fun b h1 h2 => h b (by omega) (by omega)

theorem short_inj {data' : Block} (h : short data' o = short data o) (h1 : o ≤ j) (h2 : j < o + 2) : data' j = data j := by
  refine load_inj ?_ h1 h2
  have h3 : load data o 2 < 2 ^ 16 := load_lt data o 2
  have h4 : load data' o 2 < 2 ^ 16 := load_lt data' o 2
  have h5 : (short data' o).toUInt16.toNat = (short data o).toUInt16.toNat := by rw [h]
  have h6 (data : Block) : (short data o).toUInt16.toNat = load data o 2 % 2 ^ 16 := by simp [short]
  rwa [h6, h6, Nat.mod_eq_of_lt h3, Nat.mod_eq_of_lt h4] at h5

theorem getDinode_inj {data' : Block} (h : getDinode data' o = getDinode data o) (h1 : o ≤ j) (h2 : j < o + 64) :
    data' j = data j := by
  simp only [getDinode, Dinode.mk.injEq] at h
  obtain ⟨htype, hmajor, hminor, hnlink, hsize, haddrs⟩ := h
  by_cases h3 : j < o + 2
  · exact short_inj htype h1 h3
  by_cases h4 : j < o + 4
  · exact short_inj hmajor (by omega) h4
  by_cases h5 : j < o + 6
  · exact short_inj hminor (by omega) h5
  by_cases h6 : j < o + 8
  · exact short_inj hnlink (by omega) h6
  by_cases h7 : j < o + 12
  · exact load_inj hsize (by omega) h7
  · -- The address with the byte.
    have hi : (j - (o + 12)) / 4 < NDIRECT + 1 := by
      simp only [NDIRECT]
      omega
    exact load_inj (congrFun haddrs ⟨(j - (o + 12)) / 4, hi⟩) (by dsimp only; omega) (by dsimp only; omega)

/-- The inode `i` on disk. -/
def dinode (cf : Conf) (block : Nat → Block) (i : Nat) : Dinode := getDinode (block (cf.iblock i)) (ioff i)

theorem dinode_fits (cf : Conf) (block : Nat → Block) (i : Nat) : (dinode cf block i).Fits := getDinode_fits _ _

theorem dinode_update_of_ne (h : cf.iblock i ≠ b) : dinode cf (update block b data) i = dinode cf block i := by
  rw [dinode, dinode, update_of_ne h]

/-- The blocks after `iupdate` of the inode `i`. -/
def putInode (cf : Conf) (block : Nat → Block) (i : Nat) (d : Dinode) : Nat → Block :=
  Function.update block (cf.iblock i) (putDinode (block (cf.iblock i)) (ioff i) d)

theorem dinode_putInode (h : d.Fits) : dinode cf (putInode cf block i d) i = d := by
  rw [dinode, putInode, update_self, get_putDinode h]

theorem dinode_putInode_of_ne (h : j ≠ i) : dinode cf (putInode cf block i d) j = dinode cf block j := by
  unfold dinode putInode
  by_cases hb : cf.iblock j = cf.iblock i
  · rw [hb, update_self]
    refine getDinode_congr fun k h1 h2 => putDinode_of_out d ?_
    simp only [Conf.iblock, ioff, IPB, BSIZE] at *
    omega
  · rw [update_of_ne hb]

theorem putInode_back (cf : Conf) (block : Nat → Block) (i : Nat) (d : Dinode) :
    putInode cf (putInode cf block i d) i (dinode cf block i) = block := by
  have hget : dinode cf (putInode cf (putInode cf block i d) i (dinode cf block i)) i = dinode cf block i :=
    dinode_putInode (dinode_fits cf block i)
  funext b
  by_cases hb : b = cf.iblock i
  · subst hb
    funext j
    by_cases hj : ioff i ≤ j ∧ j < ioff i + 64
    · exact getDinode_inj hget hj.1 hj.2
    · simp only [putInode, update_self]
      rw [putDinode_of_out _ (by omega), putDinode_of_out _ (by omega)]
  · rw [putInode, update_of_ne hb, putInode, update_of_ne hb]

/-! ## The layout -/

/-- The number of the first data block. -/
def Conf.dataStart (cf : Conf) : Nat := cf.size - cf.nblocks

/-- The inodes come before the bitmap and the bitmap before the data. -/
structure Conf.Layout (cf : Conf) : Prop where
  size_le : cf.size ≤ 0x100000000
  inodes : ∀ i < cf.ninodes, cf.iblock i < cf.bmapstart
  bitmap : ∀ b < cf.size, cf.bblock b < cf.dataStart

theorem Conf.Layout.iblock_lt (h : cf.Layout) (hi : i < cf.ninodes) (hb : b < cf.size) : cf.iblock i < cf.dataStart := by
  have h1 := h.inodes i hi
  have h2 := h.bitmap b hb
  have h3 : cf.bmapstart ≤ cf.bblock b := Nat.le_add_left _ _
  omega

theorem Conf.Layout.iblock_ne_bblock (h : cf.Layout) (hi : i < cf.ninodes) (b : Nat) : cf.iblock i ≠ cf.bblock b := by
  have h1 := h.inodes i hi
  have h3 : cf.bmapstart ≤ cf.bblock b := Nat.le_add_left _ _
  omega

end Xv6.Disk
