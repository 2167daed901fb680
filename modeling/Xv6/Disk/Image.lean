import Xv6.Disk.Content
import Xv6.Disk.Sysfile

/-!
# A small disk

A disk of 200 blocks with an empty root directory, as `mkfs` leaves it: two blocks of inodes, one block of
the bitmap and the block of the root directory are in use.
-/

open Xv6.Bytes

namespace Xv6.Disk

variable {b i k : Nat}

def sample : Conf where
  size := 200
  nblocks := 195
  ninodes := 16
  inodestart := 2
  bmapstart := 4
  read _ := none
  write _ := none

theorem sample_layout : sample.Layout where
  size_le := by decide
  inodes := by decide
  bitmap := by decide +kernel

/-- The inode of the root directory. -/
def rootInode : Dinode where
  type := T_DIR
  major := 0
  minor := 0
  nlink := 1
  size := BSIZE
  addrs i := if i = 0 then 5 else 0

theorem rootInode_fits : rootInode.Fits := ⟨by decide, by decide⟩

/-- The entries `.` and `..`. -/
def rootEntries : List UInt8 := Dirent.bytes ⟨ROOTINO, dotName 1⟩ ++ Dirent.bytes ⟨ROOTINO, dotName 2⟩

/-- The bitmap and the block of the root directory. -/
def blank (b : Nat) : Block :=
  if b = 4 then fun j => if j = 0 then 63 else 0
  else if b = 5 then fun j => rootEntries.getD j 0
  else fun _ => 0

def image : Nat → Block := putInode sample blank ROOTINO rootInode

theorem dinode_root : dinode sample image ROOTINO = rootInode := dinode_putInode rootInode_fits

theorem dinode_image_type (hi : i < sample.ninodes) (h : i ≠ ROOTINO) : (dinode sample image i).type = 0 := by
  rw [image, dinode_putInode_of_ne h]
  revert hi i
  decide +kernel

theorem used_image (hb : b < sample.size) : Used sample image b ↔ b ≤ 5 := by
  have h : Used sample image b ↔ Used sample blank b := by
    have : sample.iblock ROOTINO ≠ sample.bblock b := sample_layout.iblock_ne_bblock (by decide) b
    exact used_update this.symm
  rw [h]
  revert hb b
  decide +kernel

theorem ref_root (k : Nat) : ref image rootInode.addrs k = if k = 0 then 5 else 0 := by
  by_cases hk : k < NDIRECT + 1
  · have h : ∀ j : Fin (NDIRECT + 1), rootInode.addrs j = if j.val = 0 then 5 else 0 := by decide
    rw [ref, dif_pos hk, h]
  · rw [ref_of_no_indirect (by omega) (by decide), if_neg (by omega)]

theorem image_sound : Sound sample image (dinode sample image) := by
  have hroot : ∀ i < sample.ninodes, (dinode sample image i).type ≠ 0 → i = ROOTINO := by
    intro i hi ht
    by_contra h
    exact ht (dinode_image_type hi h)
  refine ⟨fun i hi ht k hk => ?_, fun i hi j hj hti htj k l hk heq => ?_, fun b hb hs => ?_⟩
  · rw [hroot i hi ht, dinode_root, ref_root] at hk ⊢
    have h0 : k = 0 := by
      by_contra h
      exact hk (if_neg h)
    rw [if_pos h0, used_image (by decide)]
    decide
  · have hij : i = j := (hroot i hi hti).trans (hroot j hj htj).symm
    rw [hroot i hi hti, dinode_root, ref_root] at hk heq
    rw [hroot j hj htj, dinode_root, ref_root] at heq
    refine ⟨hij, ?_⟩
    by_cases hk0 : k = 0
    · rw [if_pos hk0] at heq
      by_cases hl0 : l = 0
      · exact hk0.trans hl0.symm
      · rw [if_neg hl0] at heq
        cases heq
    · exact absurd (if_neg hk0) hk
  · rw [used_image hs]
    have : sample.dataStart = 5 := by decide
    omega

theorem root_full : Full image rootInode := by
  intro bn hbn
  have : bn = 0 := by
    simp only [rootInode, BSIZE] at hbn
    omega
  subst this
  decide

def rootSlot : Slot := ⟨0, by decide⟩

/-- The root directory is in the first slot of the cache, and nothing else is. -/
def fresh : State where
  block := image
  bufs := []
  logged := []
  icache i := if i = rootSlot then { rootInode with inum := ROOTINO, ref := 1, locked := false, valid := true }
    else { type := 0, major := 0, minor := 0, nlink := 0, size := 0, addrs := fun _ => 0, inum := 0, ref := 0,
           locked := false, valid := false }
  file _ := ⟨.FD_NONE, 0, false, false, rootSlot, 0⟩
  proc _ := ⟨fun _ => none, rootSlot⟩
  outstanding := 0

theorem fresh_open : Open sample fresh rootSlot := by
  refine ⟨by decide, by decide, ?_⟩
  rw [view_eq (dinode_root : dinode sample fresh.block _ = _)]
  exact image_sound

end Xv6.Disk
