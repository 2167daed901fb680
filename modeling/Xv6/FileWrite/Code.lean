import Xv6.Lib.Run
import Xv6.Param

/-!
# Writes to a shared file

`filewrite` of `file.c` for any number of processes that share one `struct file` of a regular inode,
with `writei` of `fs.c` one block at a time. The inode's blocks are numbered as in the file. Waiting in
`begin_op`, in `ilock` or for a CPU is not taking a step.
-/

namespace Xv6.FileWrite

abbrev Block := Nat → UInt8

/-- `((MAXOPBLOCKS-1-1-2) / 2) * 512` -/
def MAXCHUNK : Nat := (MAXOPBLOCKS - 1 - 1 - 2) / 2 * 512

/-- The next statement of a call `filewrite(f, buf, n)`, where `n` is the length of `buf` and `i` bytes
are done. `r` is what `writei` has returned, with `none` for -1. From `writei` to `unlock` the process
has `ip->lock`. -/
inductive Pc
  | out
  /-- `while(i < n)` -/
  | loop (buf : List UInt8) (i : Nat)
  | begin (buf : List UInt8) (i : Nat)
  | lock (buf : List UInt8) (i : Nat)
  | writei (buf : List UInt8) (i : Nat)
  /-- The loop of `writei`. -/
  | copy (buf : List UInt8) (i tot : Nat) (off : BitVec 32)
  /-- `if(n > 0 && off > ip->size)` -/
  | grow (buf : List UInt8) (i : Nat) (off : BitVec 32)
  /-- `f->off += r` -/
  | advance (buf : List UInt8) (i : Nat) (r : Option Nat)
  | unlock (buf : List UInt8) (i : Nat) (r : Option Nat)
  | endOp (buf : List UInt8) (i : Nat) (r : Option Nat)
  | test (buf : List UInt8) (i : Nat) (r : Option Nat)
  | ret (buf : List UInt8) (r : Option Nat)
  deriving DecidableEq

/-- The file's offset, the inode's size, blocks and lock, and the processes. -/
structure State (ι : Type) where
  off : BitVec 32
  size : BitVec 32
  blocks : Nat → Option Block
  lock : Option ι
  pc : ι → Pc

variable {ι : Type}

def init (off size : BitVec 32) (blocks : Nat → Option Block) : State ι where
  off := off
  size := size
  blocks := blocks
  lock := none
  pc := fun _ => .out

/-- The block that `bmap` finds. A new block is filled with zeros. -/
def State.bmap (s : State ι) (bn : Nat) : Block := (s.blocks bn).getD fun _ => 0

/-- The block with `bs` written at `off`. -/
def splice (b : Block) (off : Nat) (bs : List UInt8) : Block := fun j =>
  if off ≤ j ∧ j < off + bs.length then bs.getD (j - off) 0 else b j

/-- `n1` -/
def chunk (buf : List UInt8) (i : Nat) : Nat := if MAXCHUNK < buf.length - i then MAXCHUNK else buf.length - i

variable [DecidableEq ι]

def State.goto (s : State ι) (p : ι) (pc : Pc) : State ι := { s with pc := Function.update s.pc p pc }

/-- The next statement of process `p`. `none` while it waits, and after the panic "short filewrite". -/
def step (s : State ι) (p : ι) : Option (State ι) :=
  match s.pc p with
  | .loop buf i =>
    if i < buf.length then some (s.goto p (.begin buf i))
    else some (s.goto p (.ret buf (if i = buf.length then some i else none)))
  | .begin buf i => some (s.goto p (.lock buf i))
  | .lock buf i => if s.lock.isNone then some { s.goto p (.writei buf i) with lock := some p } else none
  | .writei buf i =>
    let n := BitVec.ofNat 32 (chunk buf i)
    if s.size < s.off ∨ s.off + n < s.off then some (s.goto p (.advance buf i none))
    else if BitVec.ofNat 32 (MAXFILE * BSIZE) < s.off + n then some (s.goto p (.advance buf i none))
    else some (s.goto p (.copy buf i 0 s.off))
  | .copy buf i tot off =>
    if tot < chunk buf i then
      let m := min (chunk buf i - tot) (BSIZE - off.toNat % BSIZE)
      let b := splice (s.bmap (off.toNat / BSIZE)) (off.toNat % BSIZE) ((buf.drop (i + tot)).take m)
      some { s.goto p (.copy buf i (tot + m) (off + BitVec.ofNat 32 m)) with
        blocks := Function.update s.blocks (off.toNat / BSIZE) (some b) }
    else some (s.goto p (.grow buf i off))
  | .grow buf i off =>
    if 0 < chunk buf i ∧ s.size < off then
      some { s.goto p (.advance buf i (some (chunk buf i))) with size := off }
    else some (s.goto p (.advance buf i (some (chunk buf i))))
  | .advance buf i r =>
    match r with
    | some k =>
      if 0 < k then some { s.goto p (.unlock buf i r) with off := s.off + BitVec.ofNat 32 k }
      else some (s.goto p (.unlock buf i r))
    | none => some (s.goto p (.unlock buf i r))
  | .unlock buf i r => some { s.goto p (.endOp buf i r) with lock := none }
  | .endOp buf i r => some (s.goto p (.test buf i r))
  | .test buf i r =>
    match r with
    -- `break`
    | none => some (s.goto p (.ret buf (if i = buf.length then some i else none)))
    | some k => if k = chunk buf i then some (s.goto p (.loop buf (i + k))) else none
  | .out => none
  | .ret _ _ => none

inductive Act (ι : Type)
  /-- `p` calls `filewrite`. -/
  | call (p : ι) (buf : List UInt8)
  | step (p : ι)
  /-- The call of `p` returns. -/
  | ret (p : ι)

def next (s : State ι) : Act ι → Option (State ι)
  | .call p buf =>
    match s.pc p with
    | .out => some (s.goto p (.loop buf 0))
    | _ => none
  | .step p => step s p
  | .ret p =>
    match s.pc p with
    | .ret _ _ => some (s.goto p .out)
    | _ => none

end Xv6.FileWrite
