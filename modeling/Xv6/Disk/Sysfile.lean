import Xv6.Disk.Code

/-!
# The system calls on files

The calls of `sysfile.c` that work on names. A path that `argstr` does not accept is `none`. Local name
buffers start with zeroes.
-/

open Xv6.Bytes

namespace Xv6.Disk

variable (cf : Conf)

def begin_op : K Unit := fun s => .ok ((), { s with outstanding := s.outstanding + 1 })

def end_op : K Unit := fun s => .ok ((), { s with outstanding := s.outstanding - 1 })

/-! ## The file table -/

def filealloc : K (Option (Fin NFILE)) := fun s =>
  match (List.finRange NFILE).find? fun f => (s.file f).ref = 0 with
  | none => .ok (none, s)
  | some f => .ok (some f, s.setFile f { s.file f with ref := 1 })

/-- `fileclose`. What `pipeclose` does is not on the disk. -/
def fileclose (f : Fin NFILE) : K Unit := fun s =>
  let x := s.file f
  if x.ref < 1 then .error (.panic "fileclose")
  else if 0 < x.ref - 1 then .ok ((), s.setFile f { x with ref := x.ref - 1 })
  else
    (match x.type with
    | .FD_INODE => do
      begin_op
      iput cf x.ip
      end_op
    | _ => pure () : K Unit) (s.setFile f { x with ref := 0, type := .FD_NONE })

def fdalloc (p : Fin NPROC) (f : Fin NFILE) : K (Option (Fin NOFILE)) := fun s =>
  match (List.finRange NOFILE).find? fun fd => (s.proc p).ofile fd = none with
  | none => .ok (none, s)
  | some fd => .ok (some fd, s.setProc p { s.proc p with ofile := Function.update (s.proc p).ofile fd (some f) })

/-! ## Links -/

/-- `ip->nlink += n`, and `iupdate`. -/
def addLink (ip : Slot) (n : Int16) : K Unit := do
  let x ← inode ip
  setInode ip { x with nlink := x.nlink + n }
  iupdate cf ip

/-- The end of `sys_link` at `bad`. -/
def linkBad (ip : Slot) : K Int := do
  ilock cf ip
  addLink cf ip (-1)
  iunlockput cf ip
  end_op
  pure (-1)

/-- `sys_link` from where the links have been raised. -/
def linkTo (p : Fin NPROC) (ip : Slot) (new : List UInt8) : K Int := do
  match ← nameiparent cf p new fun _ => 0 with
  | none => linkBad cf ip
  | some (dp, name) => do
    ilock cf dp
    if (← dirlink cf dp name (← inode ip).inum) < 0 then do
      iunlockput cf dp
      linkBad cf ip
    else do
      iunlockput cf dp
      iput cf ip
      end_op
      pure 0

def sys_link (p : Fin NPROC) (old new : Option (List UInt8)) : K Int :=
  match old, new with
  | some old, some new => do
    begin_op
    match ← namei cf p old with
    | none => do
      end_op
      pure (-1)
    | some ip => do
      ilock cf ip
      if (← inode ip).type = T_DIR then do
        iunlockput cf ip
        end_op
        pure (-1)
      else do
        addLink cf ip 1
        iunlock ip
        linkTo cf p ip new
  | _, _ => pure (-1)

/-- The loop of `isdirempty`, with at most `k` rounds. -/
def isdiremptyLoop (dp : Slot) : Nat → Nat → K Bool
  | 0, off => do if off < (← inode dp).size then throw .hang else pure true
  | k + 1, off => do
    if off < (← inode dp).size then
      match ← readi cf dp off DENT with
      | none => panic "isdirempty: readi"
      | some bs =>
        if bs.length ≠ DENT then panic "isdirempty: readi"
        else if (getDirent bs).inum ≠ 0 then pure false
        else isdiremptyLoop dp k (u32 (off + DENT))
    else pure true

def isdirempty (dp : Slot) : K Bool := do
  isdiremptyLoop cf dp ((← inode dp).size / DENT + 1) (2 * DENT)

/-- The name `.` or `..`. -/
def dotName (n : Nat) : Mem := fun i => if i < n then 46 else 0

/-- The end of `sys_unlink` at `bad`. -/
def unlinkBad (dp : Slot) : K Int := do
  iunlockput cf dp
  end_op
  pure (-1)

/-- `sys_unlink` from where the entry is removed. -/
def unlinkEntry (dp ip : Slot) (off : Nat) : K Int := do
  if (← writei cf dp (List.replicate DENT 0) off) ≠ DENT then panic "unlink: writei"
  else do
    when ((← inode ip).type = T_DIR) (addLink cf dp (-1))
    iunlockput cf dp
    addLink cf ip (-1)
    iunlockput cf ip
    end_op
    pure 0

def sys_unlink (p : Fin NPROC) (path : Option (List UInt8)) : K Int :=
  match path with
  | none => pure (-1)
  | some path => do
    begin_op
    match ← nameiparent cf p path fun _ => 0 with
    | none => do
      end_op
      pure (-1)
    | some (dp, name) => do
      ilock cf dp
      if namecmp name (dotName 1) = 0 ∨ namecmp name (dotName 2) = 0 then unlinkBad cf dp
      else
        match ← dirlookup cf dp name with
        | none => unlinkBad cf dp
        | some (ip, off) => do
          ilock cf ip
          let x ← inode ip
          if x.nlink < 1 then panic "unlink: nlink < 1"
          else if x.type = T_DIR then do
            if ← isdirempty cf ip then unlinkEntry cf dp ip off
            else do
              iunlockput cf ip
              unlinkBad cf dp
          else unlinkEntry cf dp ip off

/-! ## Creating files -/

/-- `create` from `ialloc` on. -/
def createNew (dp : Slot) (name : Mem) (type major minor : Int16) : K (Option Slot) := do
  let ip ← ialloc cf type
  ilock cf ip
  let x ← inode ip
  setInode ip { x with major := major, minor := minor, nlink := 1 }
  iupdate cf ip
  when (type = T_DIR) (do
    addLink cf dp 1
    if (← dirlink cf ip (dotName 1) (← inode ip).inum) < 0 then panic "create dots"
    else if (← dirlink cf ip (dotName 2) (← inode dp).inum) < 0 then panic "create dots"
    else pure ())
  if (← dirlink cf dp name (← inode ip).inum) < 0 then panic "create: dirlink"
  else do
    iunlockput cf dp
    pure (some ip)

def create (p : Fin NPROC) (path : List UInt8) (type major minor : Int16) : K (Option Slot) := do
  match ← nameiparent cf p path fun _ => 0 with
  | none => pure none
  | some (dp, name) => do
    ilock cf dp
    match ← dirlookup cf dp name with
    | some (ip, _) => do
      iunlockput cf dp
      ilock cf ip
      if type = T_FILE ∧ (← inode ip).type = T_FILE then pure (some ip)
      else do
        iunlockput cf ip
        pure none
    | none => createNew cf dp name type major minor

def O_RDONLY : UInt32 := 0
def O_WRONLY : UInt32 := 1
def O_RDWR : UInt32 := 2
def O_CREATE : UInt32 := 0x200

/-- The inode of `sys_open`, locked. -/
def openInode (p : Fin NPROC) (path : List UInt8) (omode : UInt32) : K (Option Slot) :=
  if omode &&& O_CREATE ≠ 0 then create cf p path T_FILE 0 0
  else do
    match ← namei cf p path with
    | none => pure none
    | some ip => do
      ilock cf ip
      if (← inode ip).type = T_DIR ∧ omode ≠ O_RDONLY then do
        iunlockput cf ip
        pure none
      else pure (some ip)

def setFile (f : Fin NFILE) (x : File → File) : K Unit := fun s => .ok ((), s.setFile f (x (s.file f)))

def sys_open (p : Fin NPROC) (path : Option (List UInt8)) (omode : UInt32) : K Int :=
  match path with
  | none => pure (-1)
  | some path => do
    begin_op
    match ← openInode cf p path omode with
    | none => do
      end_op
      pure (-1)
    | some ip => do
      match ← filealloc with
      | none => do
        iunlockput cf ip
        end_op
        pure (-1)
      | some f => do
        match ← fdalloc p f with
        | none => do
          fileclose cf f
          iunlockput cf ip
          end_op
          pure (-1)
        | some fd => do
          iunlock ip
          end_op
          setFile f fun x => { x with
            type := .FD_INODE, ip := ip, off := 0, readable := !(omode &&& O_WRONLY ≠ 0)
            writable := omode &&& O_WRONLY ≠ 0 || omode &&& O_RDWR ≠ 0 }
          pure fd.val

/-- The end of `sys_mkdir` and `sys_mknod`. -/
def putNew (ip : Option Slot) : K Int :=
  match ip with
  | none => do
    end_op
    pure (-1)
  | some ip => do
    iunlockput cf ip
    end_op
    pure 0

def sys_mkdir (p : Fin NPROC) (path : Option (List UInt8)) : K Int := do
  begin_op
  match path with
  | none => putNew cf none
  | some path => do
    let ip ← create cf p path T_DIR 0 0
    putNew cf ip

/-- `sys_mknod`. The numbers are cut to a `short`. -/
def sys_mknod (p : Fin NPROC) (path : Option (List UInt8)) (major minor : Int32) : K Int := do
  begin_op
  match path with
  | none => putNew cf none
  | some path => do
    let ip ← create cf p path T_DEV major.toInt16 minor.toInt16
    putNew cf ip

/-! ## The other calls -/

def sys_chdir (p : Fin NPROC) (path : Option (List UInt8)) : K Int := do
  begin_op
  match path with
  | none => do
    end_op
    pure (-1)
  | some path => do
    match ← namei cf p path with
    | none => do
      end_op
      pure (-1)
    | some ip => do
      ilock cf ip
      if (← inode ip).type ≠ T_DIR then do
        iunlockput cf ip
        end_op
        pure (-1)
      else do
        iunlock ip
        iput cf (← cwd p)
        end_op
        fun s => .ok (0, s.setProc p { s.proc p with cwd := ip })

/-- `sys_close`. `fd` is what `argfd` has read. -/
def sys_close (p : Fin NPROC) (fd : Nat) : K Int := fun s =>
  if h : fd < NOFILE then
    match (s.proc p).ofile ⟨fd, h⟩ with
    | none => .ok (-1, s)
    | some f =>
      (do
        fileclose cf f
        pure 0 : K Int) (s.setProc p { s.proc p with ofile := Function.update (s.proc p).ofile ⟨fd, h⟩ none })
  else .ok (-1, s)

end Xv6.Disk
