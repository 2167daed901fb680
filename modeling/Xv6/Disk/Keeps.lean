import Xv6.Disk.Sysfile

/-!
# What the file system leaves alone

The functions of `fs.c` change blocks, buffers and inodes only.
-/

open Xv6.Bytes Xv6.Cmd

namespace Xv6.Disk

variable {cf : Conf} {α : Type} {f : State → α} {ip dp : Slot}

/-- The file table, the processes and the number of open transactions. -/
def State.tables (s : State) : (Fin NFILE → File) × (Fin NPROC → Proc) × Nat := (s.file, s.proc, s.outstanding)

theorem keeps_panic {β : Type} (msg : String) : Keeps f (panic msg : K β) := keeps_throw _

theorem keeps_when {c : Prop} [Decidable c] {x : K Unit} (h : Keeps f x) : Keeps f (when c x) :=
  keeps_ite h (keeps_pure _)

/-! ## Blocks -/

theorem keeps_bread (b : Nat) : Keeps State.tables (bread b) := by
  intro s a s' h
  unfold bread at h
  split at h
  · cases h
  · cases h
    rfl

theorem keeps_brelse (b : Nat) : Keeps State.tables (brelse b) := by
  rintro s a s' ⟨⟩
  rfl

theorem keeps_log_write (b : Nat) (data : Block) : Keeps State.tables (log_write b data) := by
  rintro s a s' ⟨⟩
  rfl

theorem keeps_bzero (b : Nat) : Keeps State.tables (bzero b) :=
  keeps_bind (keeps_bread b) fun _ => keeps_bind (keeps_log_write b _) fun _ => keeps_brelse b

theorem keeps_ballocLoop (k b : Nat) : Keeps State.tables (ballocLoop cf k b) := by
  induction k generalizing b with
  | zero => exact keeps_panic _
  | succ k ih =>
    rw [ballocLoop]
    refine keeps_ite (keeps_bind (keeps_bread _) fun data => ?_) (keeps_panic _)
    split
    · exact keeps_bind (keeps_log_write _ _) fun _ => keeps_bind (keeps_brelse _) fun _ =>
        keeps_bind (keeps_bzero _) fun _ => keeps_pure _
    · exact keeps_bind (keeps_brelse _) fun _ => ih _

theorem keeps_balloc : Keeps State.tables (balloc cf) := keeps_ballocLoop _ _

theorem keeps_bfree (b : Nat) : Keeps State.tables (bfree cf b) :=
  keeps_bind (keeps_bread _) fun _ => keeps_ite (keeps_panic _)
    (keeps_bind (keeps_log_write _ _) fun _ => keeps_brelse _)

/-! ## Inodes -/

theorem keeps_inode (ip : Slot) : Keeps f (inode ip) := by
  rintro s a s' ⟨⟩
  rfl

theorem keeps_setInode (ip : Slot) (x : Inode) : Keeps State.tables (setInode ip x) := by
  rintro s a s' ⟨⟩
  rfl

theorem keeps_iupdate : Keeps State.tables (iupdate cf ip) :=
  keeps_bind (keeps_inode ip) fun _ => keeps_bind (keeps_bread _) fun _ => keeps_bind (keeps_log_write _ _) fun _ =>
    keeps_brelse _

theorem keeps_iget (inum : Nat) : Keeps State.tables (iget inum) := by
  intro s a s' h
  unfold iget at h
  split at h
  · cases h
  · dsimp only at h
    split at h
    · cases h
      rfl
    · cases h
      rfl

theorem keeps_iallocLoop (type : Int16) (l : List Nat) : Keeps State.tables (iallocLoop cf type l) := by
  induction l with
  | nil => exact keeps_panic _
  | cons i l ih =>
    refine keeps_bind (keeps_bread _) fun data => keeps_ite ?_ ?_
    · exact keeps_bind (keeps_log_write _ _) fun _ => keeps_bind (keeps_brelse _) fun _ => keeps_iget i
    · exact keeps_bind (keeps_brelse _) fun _ => ih

theorem keeps_acquiresleep (ip : Slot) : Keeps State.tables (acquiresleep ip) := by
  intro s a s' h
  unfold acquiresleep at h
  split at h
  · cases h
  · cases h
    rfl

theorem keeps_releasesleep (ip : Slot) : Keeps State.tables (releasesleep ip) := by
  rintro s a s' ⟨⟩
  rfl

theorem keeps_ilock : Keeps State.tables (ilock cf ip) :=
  keeps_bind (keeps_inode ip) fun _ => keeps_ite (keeps_panic _) <|
    keeps_bind (keeps_acquiresleep ip) fun _ => keeps_bind (keeps_inode ip) fun _ => keeps_ite (keeps_pure _) <|
      keeps_bind (keeps_bread _) fun _ => keeps_bind (keeps_brelse _) fun _ => keeps_bind (keeps_setInode _ _) fun _ =>
        keeps_when (keeps_panic _)

theorem keeps_iunlock : Keeps State.tables (iunlock ip) :=
  keeps_bind (keeps_inode ip) fun _ => keeps_ite (keeps_panic _) (keeps_releasesleep ip)

theorem keeps_truncDirect (l : List (Fin (NDIRECT + 1))) : Keeps State.tables (truncDirect cf ip l) := by
  induction l with
  | nil => exact keeps_pure _
  | cons i l ih =>
    exact keeps_bind (keeps_inode ip) fun _ => keeps_bind
      (keeps_when (keeps_bind (keeps_bfree _) fun _ => keeps_setInode _ _)) fun _ => ih

theorem keeps_truncIndirect (a : Block) (l : List Nat) : Keeps State.tables (truncIndirect cf a l) := by
  induction l with
  | nil => exact keeps_pure _
  | cons j l ih => exact keeps_bind (keeps_when (keeps_bfree _)) fun _ => ih

theorem keeps_itrunc : Keeps State.tables (itrunc cf ip) := by
  refine keeps_bind (keeps_truncDirect _) fun _ => keeps_bind (keeps_inode ip) fun x => keeps_bind (keeps_when ?_) fun _ => ?_
  · exact keeps_bind (keeps_bread _) fun _ => keeps_bind (keeps_truncIndirect _ _) fun _ => keeps_bind (keeps_brelse _) fun _ =>
      keeps_bind (keeps_bfree _) fun _ => keeps_setInode _ _
  · exact keeps_bind (keeps_inode ip) fun _ => keeps_bind (keeps_setInode _ _) fun _ => keeps_iupdate

theorem keeps_ifree : Keeps State.tables (ifree cf ip) :=
  keeps_bind keeps_itrunc fun _ => keeps_bind (keeps_inode ip) fun _ => keeps_bind (keeps_setInode _ _) fun _ =>
    keeps_bind keeps_iupdate fun _ => keeps_bind (keeps_inode ip) fun _ => keeps_setInode _ _

theorem keeps_iput : Keeps State.tables (iput cf ip) :=
  keeps_bind (keeps_acquiresleep ip) fun _ => keeps_bind (keeps_inode ip) fun _ => keeps_bind (keeps_when keeps_ifree) fun _ =>
    keeps_bind (keeps_releasesleep ip) fun _ => keeps_bind (keeps_inode ip) fun _ => keeps_setInode _ _

theorem keeps_iunlockput : Keeps State.tables (iunlockput cf ip) := keeps_bind keeps_iunlock fun _ => keeps_iput

/-! ## Contents -/

theorem keeps_addrOrNew (i : Fin (NDIRECT + 1)) : Keeps State.tables (addrOrNew cf ip i) :=
  keeps_bind (keeps_inode ip) fun _ => keeps_ite
    (keeps_bind keeps_balloc fun _ => keeps_bind (keeps_inode ip) fun _ => keeps_bind (keeps_setInode _ _) fun _ => keeps_pure _)
    (keeps_pure _)

theorem keeps_bmap (bn : Nat) : Keeps State.tables (bmap cf ip bn) := by
  unfold bmap
  split
  · exact keeps_addrOrNew _
  · refine keeps_ite (keeps_bind (keeps_addrOrNew _) fun _ => keeps_bind (keeps_bread _) fun _ => keeps_ite ?_ ?_) (keeps_panic _)
    · exact keeps_bind keeps_balloc fun _ => keeps_bind (keeps_log_write _ _) fun _ => keeps_bind (keeps_brelse _) fun _ =>
        keeps_pure _
    · exact keeps_bind (keeps_brelse _) fun _ => keeps_pure _

theorem keeps_readLoop (k off n : Nat) : Keeps State.tables (readLoop cf ip k off n) := by
  induction k generalizing off n with
  | zero => exact keeps_pure _
  | succ k ih =>
    exact keeps_ite (keeps_pure _) <| keeps_bind (keeps_bmap _) fun _ => keeps_bind (keeps_bread _) fun _ =>
      keeps_bind (keeps_brelse _) fun _ => keeps_bind (ih _ _) fun _ => keeps_pure _

theorem keeps_readi (off n : Nat) : Keeps State.tables (readi cf ip off n) :=
  keeps_bind (keeps_inode ip) fun _ => keeps_ite (keeps_pure _) <| keeps_ite (keeps_pure _) <|
    keeps_bind (keeps_readLoop _ _ _) fun _ => keeps_pure _

theorem keeps_writeLoop (k off : Nat) (src : List UInt8) : Keeps State.tables (writeLoop cf ip k off src) := by
  induction k generalizing off src with
  | zero => exact keeps_pure _
  | succ k ih =>
    exact keeps_ite (keeps_pure _) <| keeps_bind (keeps_bmap _) fun _ => keeps_bind (keeps_bread _) fun _ =>
      keeps_bind (keeps_log_write _ _) fun _ => keeps_bind (keeps_brelse _) fun _ => ih _ _

theorem keeps_writei (src : List UInt8) (off : Nat) : Keeps State.tables (writei cf ip src off) := by
  refine keeps_bind (keeps_inode ip) fun x => keeps_ite ?_ (keeps_ite (keeps_pure _) (keeps_ite (keeps_pure _) ?_))
  · split
    · exact keeps_pure _
    · exact keeps_pure _
  · exact keeps_bind (keeps_writeLoop _ _ _) fun _ => keeps_bind (keeps_inode ip) fun _ =>
      keeps_bind (keeps_when (keeps_bind (keeps_setInode _ _) fun _ => keeps_iupdate)) fun _ => keeps_pure _

/-! ## Directories -/

theorem keeps_lookupLoop (name : Mem) (k off : Nat) : Keeps State.tables (lookupLoop cf dp name k off) := by
  induction k generalizing off with
  | zero => exact keeps_bind (keeps_inode dp) fun _ => keeps_ite (keeps_throw _) (keeps_pure _)
  | succ k ih =>
    refine keeps_bind (keeps_inode dp) fun _ => keeps_ite (keeps_bind (keeps_readi _ _) fun bs => ?_) (keeps_pure _)
    split
    · exact keeps_panic _
    · exact keeps_ite (keeps_panic _) (keeps_ite (keeps_pure _) (ih _))

theorem keeps_dirlookup (name : Mem) : Keeps State.tables (dirlookup cf dp name) := by
  refine keeps_bind (keeps_inode dp) fun _ => keeps_ite (keeps_panic _) (keeps_bind (keeps_lookupLoop _ _ _) fun r => ?_)
  split
  · exact keeps_pure _
  · exact keeps_bind (keeps_iget _) fun _ => keeps_pure _

theorem keeps_emptyLoop (k off : Nat) : Keeps State.tables (emptyLoop cf dp k off) := by
  induction k generalizing off with
  | zero => exact keeps_bind (keeps_inode dp) fun _ => keeps_ite (keeps_throw _) (keeps_pure _)
  | succ k ih =>
    refine keeps_bind (keeps_inode dp) fun _ => keeps_ite (keeps_bind (keeps_readi _ _) fun bs => ?_) (keeps_pure _)
    split
    · exact keeps_panic _
    · exact keeps_ite (keeps_panic _) (keeps_ite (keeps_pure _) (ih _))

theorem keeps_dirlink (name : Mem) (inum : Nat) : Keeps State.tables (dirlink cf dp name inum) := by
  refine keeps_bind (keeps_dirlookup name) fun r => ?_
  split
  · exact keeps_bind keeps_iput fun _ => keeps_pure _
  · exact keeps_bind (keeps_inode dp) fun _ => keeps_bind (keeps_emptyLoop _ _) fun _ => keeps_bind (keeps_writei _ _) fun _ =>
      keeps_ite (keeps_panic _) (keeps_pure _)

theorem keeps_addLink (n : Int16) : Keeps State.tables (addLink cf ip n) :=
  keeps_bind (keeps_inode ip) fun _ => keeps_bind (keeps_setInode _ _) fun _ => keeps_iupdate

theorem keeps_createNew (name : Mem) (type major minor : Int16) : Keeps State.tables (createNew cf dp name type major minor) := by
  refine keeps_bind (keeps_iallocLoop _ _) fun ip => keeps_bind keeps_ilock fun _ => keeps_bind (keeps_inode ip) fun x =>
    keeps_bind (keeps_setInode _ _) fun _ => keeps_bind keeps_iupdate fun _ => keeps_bind (keeps_when ?_) fun _ => ?_
  · exact keeps_bind (keeps_addLink _) fun _ => keeps_bind (keeps_inode _) fun _ => keeps_bind (keeps_dirlink _ _) fun _ =>
      keeps_ite (keeps_panic _) <| keeps_bind (keeps_inode _) fun _ => keeps_bind (keeps_dirlink _ _) fun _ =>
        keeps_ite (keeps_panic _) (keeps_pure _)
  · exact keeps_bind (keeps_inode _) fun _ => keeps_bind (keeps_dirlink _ _) fun _ => keeps_ite (keeps_panic _) <|
      keeps_bind keeps_iunlockput fun _ => keeps_pure _

end Xv6.Disk
