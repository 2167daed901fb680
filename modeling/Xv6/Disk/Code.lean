import Xv6.Lib.Bytes
import Xv6.Lib.Cmd
import Xv6.Mmu
import Xv6.Param

/-!
# The file system on disk

`fs.c` for one process that runs alone, down to the bytes of the blocks: the bitmap, the inodes with
their direct and indirect blocks, the inode cache, directories and paths. `bread` gives the block that
was last written, and every block number passed to `log_write` is recorded.
-/

open Xv6.Bytes

namespace Xv6.Disk

abbrev Block := Mem

/-- `sb`, as `iinit` has read it, and `devsw`. -/
structure Conf where
  size : Nat
  nblocks : Nat
  ninodes : Nat
  inodestart : Nat
  bmapstart : Nat
  /-- The bytes that a device gives when `n` are asked for. -/
  read : Nat → Option (Nat → Option (List UInt8))
  write : Nat → Option (List UInt8 → Int)

namespace Conf

/-- `IBLOCK` -/
def iblock (cf : Conf) (i : Nat) : Nat := i / IPB + cf.inodestart

/-- `BBLOCK` -/
def bblock (cf : Conf) (b : Nat) : Nat := b / BPB + cf.bmapstart

end Conf

def T_DIR : Int16 := 1
def T_FILE : Int16 := 2
def T_DEV : Int16 := 3

/-- `struct dinode` -/
structure Dinode where
  type : Int16
  major : Int16
  minor : Int16
  nlink : Int16
  size : Nat
  addrs : Fin (NDIRECT + 1) → Nat

/-- `struct inode`. `locked` is the sleep lock. -/
structure Inode extends Dinode where
  inum : Nat
  ref : Nat
  locked : Bool
  valid : Bool

/-- A place in the inode cache. -/
abbrev Slot := Fin NINODE

inductive FdType
  | FD_NONE
  | FD_PIPE
  | FD_INODE
  deriving DecidableEq

structure File where
  type : FdType
  ref : Nat
  readable : Bool
  writable : Bool
  ip : Slot
  off : Nat

structure Proc where
  ofile : Fin NOFILE → Option (Fin NFILE)
  cwd : Slot

/-- `bufs` are the buffers that are locked, and `logged` the blocks passed to `log_write`. -/
structure State where
  block : Nat → Block
  bufs : List Nat
  logged : List Nat
  icache : Slot → Inode
  file : Fin NFILE → File
  proc : Fin NPROC → Proc
  outstanding : Nat

namespace State

def setBlock (s : State) (b : Nat) (data : Block) : State := { s with block := Function.update s.block b data }

def setInode (s : State) (i : Slot) (x : Inode) : State := { s with icache := Function.update s.icache i x }

def setFile (s : State) (f : Fin NFILE) (x : File) : State := { s with file := Function.update s.file f x }

def setProc (s : State) (p : Fin NPROC) (x : Proc) : State := { s with proc := Function.update s.proc p x }

end State

/-- Why the machine stops. `block` is a wait for a lock that nobody releases. -/
inductive Stop
  | panic (msg : String)
  | block
  | hang
  deriving DecidableEq

abbrev K := Cmd Stop State

def panic {α : Type} (msg : String) : K α := throw (.panic msg)

def when (c : Prop) [Decidable c] (x : K Unit) : K Unit := if c then x else pure ()

variable (cf : Conf)

/-! ## Buffers -/

def bread (b : Nat) : K Block := fun s =>
  if b ∈ s.bufs then .error .block else .ok (s.block b, { s with bufs := b :: s.bufs })

def brelse (b : Nat) : K Unit := fun s => .ok ((), { s with bufs := s.bufs.erase b })

/-- `log_write` of the buffer of `b`, which now holds `data`. -/
def log_write (b : Nat) (data : Block) : K Unit := fun s =>
  .ok ((), { s.setBlock b data with logged := s.logged ++ [b] })

/-! ## Blocks -/

def bzero (bno : Nat) : K Unit := do
  let _ ← bread bno
  log_write bno fun _ => 0
  brelse bno

/-- `1 << (bi % 8)` -/
def mask (bi : Nat) : UInt8 := 1 <<< UInt8.ofNat (bi % 8)

/-- The inner loop of `balloc`, with `k` rounds left. -/
def scan (data : Block) (b : Nat) : Nat → Nat → Option Nat
  | 0, _ => none
  | k + 1, bi =>
    if bi < BPB ∧ b + bi < cf.size then
      if data (bi / 8) &&& mask bi = 0 then some bi else scan data b k (bi + 1)
    else none

/-- The outer loop of `balloc`, with `k` rounds left. -/
def ballocLoop : Nat → Nat → K Nat
  | 0, _ => panic "balloc: out of blocks"
  | k + 1, b =>
    if b < cf.size then do
      let data ← bread (cf.bblock b)
      match scan cf data b BPB 0 with
      | some bi => do
        log_write (cf.bblock b) (Function.update data (bi / 8) (data (bi / 8) ||| mask bi))
        brelse (cf.bblock b)
        bzero (b + bi)
        pure (b + bi)
      | none => do
        brelse (cf.bblock b)
        ballocLoop k (b + BPB)
    else panic "balloc: out of blocks"

def balloc : K Nat := ballocLoop cf (cf.size / BPB + 1) 0

def bfree (b : Nat) : K Unit := do
  let data ← bread (cf.bblock b)
  let bi := b % BPB
  if data (bi / 8) &&& mask bi = 0 then panic "freeing free block"
  else do
    log_write (cf.bblock b) (Function.update data (bi / 8) (data (bi / 8) &&& ~~~ mask bi))
    brelse (cf.bblock b)

/-! ## Inodes -/

/-- Where the inode is in its block. -/
def ioff (inum : Nat) : Nat := inum % IPB * 64

def short (data : Block) (o : Nat) : Int16 := Int16.ofNat (load data o 2)

/-- The inode at `o`. -/
def getDinode (data : Block) (o : Nat) : Dinode where
  type := short data o
  major := short data (o + 2)
  minor := short data (o + 4)
  nlink := short data (o + 6)
  size := load data (o + 8) 4
  addrs i := load data (o + 12 + 4 * i) 4

def putShort (data : Block) (o : Nat) (x : Int16) : Block := store data o x.toUInt16.toNat 2

/-- `memmove(dip->addrs, addrs, …)`, up to the address `k`. -/
def putAddrs (data : Block) (o : Nat) (addrs : Fin (NDIRECT + 1) → Nat) : List (Fin (NDIRECT + 1)) → Block
  | [] => data
  | i :: is => store (putAddrs data o addrs is) (o + 12 + 4 * i) (addrs i) 4

def putDinode (data : Block) (o : Nat) (d : Dinode) : Block :=
  let data := putShort data o d.type
  let data := putShort data (o + 2) d.major
  let data := putShort data (o + 4) d.minor
  let data := putShort data (o + 6) d.nlink
  let data := store data (o + 8) d.size 4
  putAddrs data o d.addrs (List.finRange (NDIRECT + 1))

def inode (ip : Slot) : K Inode := fun s => .ok (s.icache ip, s)

def setInode (ip : Slot) (x : Inode) : K Unit := fun s => .ok ((), s.setInode ip x)

def iupdate (ip : Slot) : K Unit := do
  let x ← inode ip
  let data ← bread (cf.iblock x.inum)
  log_write (cf.iblock x.inum) (putDinode data (ioff x.inum) x.toDinode)
  brelse (cf.iblock x.inum)

/-- The slot with the inode, or else the first slot without a reference. -/
def State.findSlot (s : State) (inum : Nat) : Option Slot :=
  ((List.finRange NINODE).find? fun i => 0 < (s.icache i).ref ∧ (s.icache i).inum = inum) <|>
    (List.finRange NINODE).find? fun i => (s.icache i).ref = 0

def iget (inum : Nat) : K Slot := fun s =>
  match s.findSlot inum with
  | none => .error (.panic "iget: no inodes")
  | some i =>
    let x := s.icache i
    if 0 < x.ref then .ok (i, s.setInode i { x with ref := x.ref + 1 })
    else .ok (i, s.setInode i { x with inum := inum, ref := 1, valid := false })

def idup (ip : Slot) : K Unit := do
  let x ← inode ip
  setInode ip { x with ref := x.ref + 1 }

/-- The loop of `ialloc` over the inode numbers that are left. -/
def iallocLoop (type : Int16) : List Nat → K Slot
  | [] => panic "ialloc: no inodes"
  | inum :: rest => do
    let data ← bread (cf.iblock inum)
    if (getDinode data (ioff inum)).type = 0 then do
      log_write (cf.iblock inum) (putDinode data (ioff inum) ⟨type, 0, 0, 0, 0, fun _ => 0⟩)
      brelse (cf.iblock inum)
      iget inum
    else do
      brelse (cf.iblock inum)
      iallocLoop type rest

def ialloc (type : Int16) : K Slot := iallocLoop cf type (List.range' 1 (cf.ninodes - 1))

def acquiresleep (ip : Slot) : K Unit := fun s =>
  if (s.icache ip).locked then .error .block
  else .ok ((), s.setInode ip { s.icache ip with locked := true })

def releasesleep (ip : Slot) : K Unit := fun s =>
  .ok ((), s.setInode ip { s.icache ip with locked := false })

def ilock (ip : Slot) : K Unit := do
  if (← inode ip).ref < 1 then panic "ilock"
  else do
    acquiresleep ip
    let x ← inode ip
    if x.valid then pure ()
    else do
      let data ← bread (cf.iblock x.inum)
      let d := getDinode data (ioff x.inum)
      brelse (cf.iblock x.inum)
      setInode ip { x with toDinode := d, valid := true }
      when (d.type = 0) (panic "ilock: no type")

def iunlock (ip : Slot) : K Unit := do
  let x ← inode ip
  if x.locked = false ∨ x.ref < 1 then panic "iunlock" else releasesleep ip

/-- `ip->addrs[i] = 0` after `bfree`, for the direct blocks that are left. -/
def truncDirect (ip : Slot) : List (Fin (NDIRECT + 1)) → K Unit
  | [] => pure ()
  | i :: is => do
    let x ← inode ip
    when (x.addrs i ≠ 0) (do
      bfree cf (x.addrs i)
      setInode ip { x with addrs := Function.update x.addrs i 0 })
    truncDirect ip is

/-- The loop over the entries of the indirect block that are left. -/
def truncIndirect (a : Block) : List Nat → K Unit
  | [] => pure ()
  | j :: js => do
    when (load a (4 * j) 4 ≠ 0) (bfree cf (load a (4 * j) 4))
    truncIndirect a js

/-- The index of the indirect block in `addrs`. -/
def indirect : Fin (NDIRECT + 1) := Fin.last NDIRECT

/-- The numbers of the direct blocks. -/
def direct : List (Fin (NDIRECT + 1)) := (List.finRange NDIRECT).map Fin.castSucc

def itrunc (ip : Slot) : K Unit := do
  truncDirect cf ip direct
  let x ← inode ip
  when (x.addrs indirect ≠ 0) (do
    let a ← bread (x.addrs indirect)
    truncIndirect cf a (List.range NINDIRECT)
    brelse (x.addrs indirect)
    bfree cf (x.addrs indirect)
    setInode ip { x with addrs := Function.update x.addrs indirect 0 })
  let x ← inode ip
  setInode ip { x with size := 0 }
  iupdate cf ip

/-- `iput` where no directory refers to the inode and nobody else holds it. -/
def ifree (ip : Slot) : K Unit := do
  itrunc cf ip
  let x ← inode ip
  setInode ip { x with type := 0 }
  iupdate cf ip
  let x ← inode ip
  setInode ip { x with valid := false }

def iput (ip : Slot) : K Unit := do
  acquiresleep ip
  let x ← inode ip
  when (x.valid ∧ x.nlink = 0 ∧ x.ref = 1) (ifree cf ip)
  releasesleep ip
  let x ← inode ip
  setInode ip { x with ref := x.ref - 1 }

def iunlockput (ip : Slot) : K Unit := do
  iunlock ip
  iput cf ip

/-! ## Contents -/

/-- `ip->addrs[i]`, with a new block if there is none. -/
def addrOrNew (ip : Slot) (i : Fin (NDIRECT + 1)) : K Nat := do
  let x ← inode ip
  if x.addrs i = 0 then do
    let addr ← balloc cf
    let x ← inode ip
    setInode ip { x with addrs := Function.update x.addrs i addr }
    pure addr
  else pure (x.addrs i)

def bmap (ip : Slot) (bn : Nat) : K Nat :=
  if h : bn < NDIRECT then addrOrNew cf ip ⟨bn, Nat.lt_succ_of_lt h⟩
  else if bn - NDIRECT < NINDIRECT then do
    let bn := bn - NDIRECT
    let ind ← addrOrNew cf ip indirect
    let a ← bread ind
    if load a (4 * bn) 4 = 0 then do
      let addr ← balloc cf
      log_write ind (store a (4 * bn) addr 4)
      brelse ind
      pure addr
    else do
      brelse ind
      pure (load a (4 * bn) 4)
  else panic "bmap: out of range"

/-- `memmove(dst, bp->data + off, m)` -/
def slice (data : Block) (off m : Nat) : List UInt8 := (List.range m).map fun j => data (off + j)

/-- `memmove(bp->data + off, src, …)` -/
def splice (data : Block) (off : Nat) (src : List UInt8) : Block := fun j =>
  if off ≤ j ∧ j < off + src.length then src.getD (j - off) 0 else data j

/-- The loop of `readi`, with `n` bytes left and at most `k` rounds. -/
def readLoop (ip : Slot) : Nat → Nat → Nat → K (List UInt8)
  | 0, _, _ => pure []
  | k + 1, off, n =>
    if n = 0 then pure []
    else do
      let b ← bmap cf ip (off / BSIZE)
      let data ← bread b
      let m := min n (BSIZE - off % BSIZE)
      brelse b
      let rest ← readLoop ip k (off + m) (n - m)
      pure (slice data (off % BSIZE) m ++ rest)

/-- The function of a device, if `major` has one. -/
def devsw {α : Type} (table : Nat → Option α) (major : Int16) : Option α :=
  if major < 0 ∨ NDEV ≤ major.toInt then none else table major.toInt.toNat

/-- `readi`, with the bytes read. `none` stands for -1. -/
def readi (ip : Slot) (off n : Nat) : K (Option (List UInt8)) := do
  let x ← inode ip
  if x.type = T_DEV then pure ((devsw cf.read x.major).bind fun read => read n)
  else if x.size < off ∨ u32 (off + n) < off then pure none
  else
    let n := if x.size < off + n then x.size - off else n
    return some (← readLoop cf ip n off n)

/-- The loop of `writei`, with at most `k` rounds. -/
def writeLoop (ip : Slot) : Nat → Nat → List UInt8 → K Unit
  | 0, _, _ => pure ()
  | k + 1, off, src =>
    if src.length = 0 then pure ()
    else do
      let b ← bmap cf ip (off / BSIZE)
      let data ← bread b
      let m := min src.length (BSIZE - off % BSIZE)
      log_write b (splice data (off % BSIZE) (src.take m))
      brelse b
      writeLoop ip k (off + m) (src.drop m)

/-- `writei` of all of `src`. -/
def writei (ip : Slot) (src : List UInt8) (off : Nat) : K Int := do
  let x ← inode ip
  if x.type = T_DEV then
    match devsw cf.write x.major with
    | none => pure (-1)
    | some write => pure (write src)
  else if x.size < off ∨ u32 (off + src.length) < off then pure (-1)
  else if MAXFILE * BSIZE < u32 (off + src.length) then pure (-1)
  else do
    writeLoop cf ip src.length off src
    let x ← inode ip
    when (0 < src.length ∧ x.size < off + src.length) (do
      setInode ip { x with size := off + src.length }
      iupdate cf ip)
    pure src.length

/-! ## Directories -/

/-- `strncmp` from index `i` on, for at most `n` bytes. -/
def strncmp (p q : Mem) : Nat → Nat → Int
  | 0, _ => 0
  | n + 1, i => if p i ≠ 0 ∧ p i = q i then strncmp p q n (i + 1) else (p i).toNat - (q i).toNat

/-- The second loop of `strncpy`. -/
def fill (s : Mem) : Nat → Nat → Mem
  | 0, _ => s
  | n + 1, i => fill (Function.update s i 0) n (i + 1)

/-- `strncpy` from index `i` on, for at most `n` bytes. -/
def strncpy (s t : Mem) : Nat → Nat → Mem
  | 0, _ => s
  | n + 1, i =>
    if t i ≠ 0 then strncpy (Function.update s i (t i)) t n (i + 1) else fill (Function.update s i 0) n (i + 1)

def namecmp (s t : Mem) : Int := strncmp s t DIRSIZ 0

/-- `sizeof(struct dirent)` -/
def DENT : Nat := 16

/-- `struct dirent` -/
structure Dirent where
  inum : Nat
  name : Mem

def getDirent (bs : List UInt8) : Dirent where
  inum := (bs.getD 0 0).toNat + 256 * (bs.getD 1 0).toNat
  name i := bs.getD (i + 2) 0

def Dirent.bytes (de : Dirent) : List UInt8 :=
  [UInt8.ofNat de.inum, UInt8.ofNat (de.inum / 256)] ++ (List.range DIRSIZ).map de.name

/-- The loop of `dirlookup`, with at most `k` rounds: the entry and its offset. -/
def lookupLoop (dp : Slot) (name : Mem) : Nat → Nat → K (Option (Nat × Nat))
  | 0, off => do if off < (← inode dp).size then throw .hang else pure none
  | k + 1, off => do
    if off < (← inode dp).size then
      match ← readi cf dp off DENT with
      | none => panic "dirlookup read"
      | some bs =>
        if bs.length ≠ DENT then panic "dirlookup read"
        else
          let de := getDirent bs
          if de.inum ≠ 0 ∧ namecmp name de.name = 0 then pure (some (de.inum, off))
          else lookupLoop dp name k (u32 (off + DENT))
    else pure none

def dirlookup (dp : Slot) (name : Mem) : K (Option (Slot × Nat)) := do
  let x ← inode dp
  if x.type ≠ T_DIR then panic "dirlookup not DIR"
  else
    match ← lookupLoop cf dp name (x.size / DENT + 1) 0 with
    | none => pure none
    | some (inum, off) => do
      let ip ← iget inum
      pure (some (ip, off))

/-- `dirlink`'s loop for an empty entry, with at most `k` rounds. -/
def emptyLoop (dp : Slot) : Nat → Nat → K Nat
  | 0, off => do if off < (← inode dp).size then throw .hang else pure off
  | k + 1, off => do
    if off < (← inode dp).size then
      match ← readi cf dp off DENT with
      | none => panic "dirlink read"
      | some bs =>
        if bs.length ≠ DENT then panic "dirlink read"
        else if (getDirent bs).inum = 0 then pure off
        else emptyLoop dp k (u32 (off + DENT))
    else pure off

def dirlink (dp : Slot) (name : Mem) (inum : Nat) : K Int := do
  match ← dirlookup cf dp name with
  | some (ip, _) => do
    iput cf ip
    pure (-1)
  | none => do
    let off ← emptyLoop cf dp ((← inode dp).size / DENT + 1) 0
    let de : Dirent := ⟨inum, strncpy (fun _ => 0) name DIRSIZ 0⟩
    if (← writei cf dp de.bytes off) ≠ DENT then panic "dirlink" else pure 0

/-! ## Paths -/

def slash : UInt8 := 47

/-- `while(*path == '/') path++` -/
def skipSlashes : List UInt8 → List UInt8
  | [] => []
  | c :: path => if c = slash then skipSlashes path else c :: path

/-- `while(*path != '/' && *path != 0) path++` -/
def skipName : List UInt8 → List UInt8
  | [] => []
  | c :: path => if c ≠ slash ∧ c ≠ 0 then skipName path else c :: path

/-- `*path`, where the string ends with a NUL. -/
def head (path : List UInt8) : UInt8 := path.headD 0

/-- `memmove(name, s, len)` -/
def copyName (name : Mem) (s : List UInt8) (len : Nat) : Mem := fun i => if i < len then s.getD i 0 else name i

/-- The rest of the path and the new contents of `name`. -/
def skipelem (path : List UInt8) (name : Mem) : Option (List UInt8 × Mem) :=
  let s := skipSlashes path
  if head s = 0 then none
  else
    let path := skipName s
    let len := s.length - path.length
    let name := if DIRSIZ ≤ len then copyName name s DIRSIZ else Function.update (copyName name s len) len 0
    some (skipSlashes path, name)

/-- The loop of `namex`, with at most `k` rounds. -/
def namexLoop (nameiparent : Bool) : Nat → Slot → List UInt8 → Mem → K (Option (Slot × Mem))
  | 0, _, _, _ => throw .hang
  | k + 1, ip, path, name =>
    match skipelem path name with
    | none =>
      if nameiparent then do
        iput cf ip
        pure none
      else pure (some (ip, name))
    | some (path, name) => do
      ilock cf ip
      if (← inode ip).type ≠ T_DIR then do
        iunlockput cf ip
        pure none
      else if nameiparent ∧ head path = 0 then do
        iunlock ip
        pure (some (ip, name))
      else
        match ← dirlookup cf ip name with
        | none => do
          iunlockput cf ip
          pure none
        | some (next, _) => do
          iunlockput cf ip
          namexLoop nameiparent k next path name

def cwd (p : Fin NPROC) : K Slot := fun s => .ok ((s.proc p).cwd, s)

/-- `namex` for process `p`. `name` is what the buffer holds before. -/
def namex (p : Fin NPROC) (path : List UInt8) (nameiparent : Bool) (name : Mem) : K (Option (Slot × Mem)) := do
  if head path = slash then do
    let ip ← iget ROOTINO
    namexLoop cf nameiparent (path.length + 1) ip path name
  else do
    let ip ← cwd p
    idup ip
    namexLoop cf nameiparent (path.length + 1) ip path name

def namei (p : Fin NPROC) (path : List UInt8) : K (Option Slot) := do
  return (← namex cf p path false fun _ => 0).map Prod.fst

def nameiparent (p : Fin NPROC) (path : List UInt8) (name : Mem) : K (Option (Slot × Mem)) :=
  namex cf p path true name

end Xv6.Disk
