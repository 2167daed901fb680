import Xv6.Lib.Circle
import Xv6.Lib.Run
import Xv6.Lib.Writes
import Xv6.Param

/-!
# The buffer cache

`bio.c` over the disk of `memide.c`, for any processes. A step is one hold of `bcache.lock`, one
`acquiresleep` or `releasesleep`, or what a process does to a buffer that it has locked. The commit of the
log is a process that calls `bread`, copies, and calls `bwrite` and `brelse`.
-/

open Xv6.Circle

namespace Xv6.Bio

/-- `valid` and `dirty` are the bits `B_VALID` and `B_DIRTY` of `flags`. -/
structure Buf (β : Type) where
  valid : Bool
  dirty : Bool
  dev : Nat
  blockno : Nat
  refcnt : Nat
  data : β

/-- Where a process is. It may have locked any number of buffers. -/
inductive Pc
  | idle
  /-- In `bread(dev, blockno)`, at the `acquiresleep` of `bget`. -/
  | get (k : Fin NBUF) (dev blockno : Nat)
  /-- In `bread(dev, blockno)`, at the test of `B_VALID`. -/
  | fill (k : Fin NBUF) (dev blockno : Nat)
  /-- In `brelse`, after `releasesleep`. -/
  | rel (k : Fin NBUF)
  deriving DecidableEq

/-- What a `bread` has returned. -/
structure Returned (β : Type) where
  dev : Nat
  blockno : Nat
  data : β

/-- `lock k` is who has the sleep lock of buffer `k`. The last three fields are the history: the buffers
that were changed and not yet stored, what was stored for each block, and what the last step returned. -/
structure State (ι β : Type) where
  links : Links (Fin NBUF)
  buf : Fin NBUF → Buf β
  lock : Fin NBUF → Option ι
  disk : Nat → β
  pc : ι → Pc
  panicked : Option String
  touched : Fin NBUF → Bool
  stores : List (Nat × β)
  said : Option (Returned β)

variable {ι β : Type}

def State.setBuf (s : State ι β) (k : Fin NBUF) (b : Buf β) : State ι β :=
  { s with buf := Function.update s.buf k b }

def State.panic (s : State ι β) (msg : String) : State ι β := { s with panicked := some msg }

/-- The loop of `binit`. -/
def binit (p : Links (Fin NBUF)) : Links (Fin NBUF) :=
  (List.finRange NBUF).foldl Links.pushFront
    { next := Function.update p.next none none, prev := Function.update p.prev none none }

/-- After `binit`, on the disk `d`. The buffers are in `.bss`. -/
def init (p : Links (Fin NBUF)) (data : Fin NBUF → β) (d : Nat → β) : State ι β where
  links := binit p
  buf := fun k => ⟨false, false, 0, 0, 0, data k⟩
  lock := fun _ => none
  disk := d
  pc := fun _ => .idle
  panicked := none
  touched := fun _ => false
  stores := []
  said := none

variable [DecidableEq ι]

def State.goto (s : State ι β) (i : ι) (pc : Pc) : State ι β :=
  { s with pc := Function.update s.pc i pc }

/-- The first loop of `bget`. -/
def State.cached (s : State ι β) (dev blockno : Nat) : Option (Option (Fin NBUF)) :=
  search s.links.next (fun k => (s.buf k).dev = dev ∧ (s.buf k).blockno = blockno) (NBUF + 1)
    (s.links.next none)

/-- The second loop of `bget`. -/
def State.unused (s : State ι β) : Option (Option (Fin NBUF)) :=
  search s.links.prev (fun k => (s.buf k).refcnt = 0 ∧ (s.buf k).dirty = false) (NBUF + 1)
    (s.links.prev none)

/-- `bget` up to `acquiresleep`. `none` if a loop does not end. -/
def bget (s : State ι β) (i : ι) (dev blockno : Nat) : Option (State ι β) :=
  match s.cached dev blockno with
  | none => none
  | some (some k) =>
    let b := s.buf k
    some ((s.setBuf k { b with refcnt := b.refcnt + 1 }).goto i (.get k dev blockno))
  | some none =>
    match s.unused with
    | none => none
    | some (some k) =>
      let b := { s.buf k with dev := dev, blockno := blockno, valid := false, dirty := false, refcnt := 1 }
      some ((s.setBuf k b).goto i (.get k dev blockno))
    | some none => some (s.panic "bget: no buffers")

/-- What is written to the disk is stored. -/
def iderw (disksize : Nat) (s : State ι β) (i : ι) (k : Fin NBUF) : State ι β :=
  let b := s.buf k
  if s.lock k ≠ some i then s.panic "iderw: buf not locked"
  else if b.valid = true ∧ b.dirty = false then s.panic "iderw: nothing to do"
  else if b.dev ≠ 1 then s.panic "iderw: request not for disk 1"
  else if disksize ≤ b.blockno then s.panic "iderw: block out of range"
  else if b.dirty then
    { s.setBuf k { b with dirty := false, valid := true } with
      disk := Function.update s.disk b.blockno b.data
      touched := Function.update s.touched k false
      stores := s.stores ++ [(b.blockno, b.data)] }
  else s.setBuf k { b with data := s.disk b.blockno, valid := true }

/-- `bread` from the test of `B_VALID` on. -/
def fill (disksize : Nat) (s : State ι β) (i : ι) (k : Fin NBUF) (dev blockno : Nat) : State ι β :=
  let s := if (s.buf k).valid then s else iderw disksize s i k
  if s.panicked.isSome then s
  else { s.goto i .idle with said := some ⟨dev, blockno, (s.buf k).data⟩ }

def bwrite (disksize : Nat) (s : State ι β) (i : ι) (k : Fin NBUF) : State ι β :=
  if s.lock k ≠ some i then s.panic "bwrite"
  else iderw disksize (s.setBuf k { s.buf k with dirty := true }) i k

/-- What `log_write` does to the buffer. -/
def log_write (s : State ι β) (k : Fin NBUF) : State ι β :=
  let b := s.buf k
  { s.setBuf k { b with dirty := true } with
    touched := Function.update s.touched k false
    stores := s.stores ++ [(b.blockno, b.data)] }

/-- `brelse` up to `releasesleep`. -/
def brelse (s : State ι β) (i : ι) (k : Fin NBUF) : State ι β :=
  if s.lock k ≠ some i then s.panic "brelse"
  else { s.goto i (.rel k) with lock := Function.update s.lock k none }

/-- The rest of `brelse`. -/
def unref (s : State ι β) (i : ι) (k : Fin NBUF) : State ι β :=
  let b := s.buf k
  let s := (s.setBuf k { b with refcnt := b.refcnt - 1 }).goto i .idle
  if (s.buf k).refcnt = 0 then { s with links := (s.links.unlink k).pushFront k } else s

inductive Act (ι β : Type)
  | bread (i : ι) (dev blockno : Nat)
  /-- The next step of a `bread` or `brelse`. -/
  | step (i : ι)
  /-- A process changes a buffer in place. -/
  | modify (i : ι) (k : Fin NBUF) (data : β)
  | log_write (i : ι) (k : Fin NBUF)
  | bwrite (i : ι) (k : Fin NBUF)
  | brelse (i : ι) (k : Fin NBUF)

/-- The next step of process `i` in `bread` or `brelse`. `none` while it waits for a buffer. -/
def step (disksize : Nat) (s : State ι β) (i : ι) : Option (State ι β) :=
  match s.pc i with
  | .idle => none
  | .get k dev blockno =>
    if (s.lock k).isNone then
      some { s.goto i (.fill k dev blockno) with lock := Function.update s.lock k (some i) }
    else none
  | .fill k dev blockno => some (fill disksize s i k dev blockno)
  | .rel k => some (unref s i k)

/-- A process changes and logs only what it has locked, and stores what it has changed before it lets
go of the buffer. -/
def act (disksize : Nat) (s : State ι β) : Act ι β → Option (State ι β)
  | .bread i dev blockno => if s.pc i = .idle then bget s i dev blockno else none
  | .step i => step disksize s i
  | .modify i k data =>
    if s.pc i = .idle ∧ s.lock k = some i then
      some { s.setBuf k { s.buf k with data := data } with touched := Function.update s.touched k true }
    else none
  | .log_write i k => if s.pc i = .idle ∧ s.lock k = some i then some (log_write s k) else none
  | .bwrite i k => if s.pc i = .idle then some (bwrite disksize s i k) else none
  | .brelse i k => if s.pc i = .idle ∧ s.touched k = false then some (brelse s i k) else none

def next (disksize : Nat) (s : State ι β) (a : Act ι β) : Option (State ι β) :=
  if s.panicked.isSome then none else act disksize { s with said := none } a

end Xv6.Bio
