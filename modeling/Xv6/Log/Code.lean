import Xv6.Param
import Xv6.Lib.Run
import Xv6.Lib.Writes

/-!
# The redo log

`log.c` over the buffer cache and the disk. Every disk write is a step of its own, and the machine
can crash between any two steps. `begin_op` and `end_op` are one step each, and `log_write` is two: it
looks for room before it takes `log.lock`.
-/

open Xv6.Run

namespace Xv6.Log

/-- The words of a block. Word 0 of the header block is `n`, and the words after it are `block[]`. -/
abbrev Block := Nat → Nat

/-- A cached block. `dirty` is `B_DIRTY`, and only blocks that are not dirty are recycled. -/
structure Buf where
  data : Block
  dirty : Bool

/-- Where the log is on the disk: the header block at `start`, then `size - 1` data blocks. -/
structure Region where
  start : Nat
  size : Nat

def Region.Home (r : Region) (b : Nat) : Prop := b < r.start ∨ r.start + r.size ≤ b

instance (r : Region) (b : Nat) : Decidable (r.Home b) := inferInstanceAs (Decidable (_ ∨ _))

/-! ## The header block -/

/-- `read_head`: the first `n` block numbers. -/
def getHeader (h : Block) : List Nat := (List.range (h 0)).map fun i => h (i + 1)

/-- `write_head`: `n` and the first `n` block numbers. The words after them stay. -/
def putHeader (h : Block) (blocks : List Nat) : Block := fun k =>
  if k = 0 then blocks.length else blocks.getD (k - 1) (h k)

/-! ## The state -/

/-- What the committing process, or the recovering kernel, does next. -/
inductive Ctl
  | idle
  /-- `write_log` at `tail` -/
  | writeLog (tail : Nat)
  /-- `write_head`, the commit point -/
  | writeHead
  /-- `install_trans` at `tail` -/
  | install (tail : Nat)
  /-- `log.lh.n = 0; write_head()` -/
  | clearHead
  /-- The machine has crashed and its memory is lost. -/
  | down
  /-- `recover_from_log`, in `install_trans` at `tail` -/
  | recover (tail : Nat)
  /-- `recover_from_log`, at its `write_head` -/
  | recoverClear
  deriving DecidableEq

/-- One `log_write`: the operation that made it, the block and the new contents. -/
structure Write where
  op : Nat
  block : Nat
  data : Block

/-- `passed` are the operations in `log_write` that have found room and wait for `log.lock`, and
`panicked` is the message of a panic. The last six fields are the history, which no step reads but to
add to it. `commits` is the sequence of commits, each as the operations it covers, and `reached` says
how many of them have their header on the disk. -/
structure State where
  disk : Nat → Block
  cache : Nat → Option Buf
  lh : List Nat
  outstanding : Nat
  committing : Bool
  ctl : Ctl
  passed : List Nat
  panicked : Option String
  nextOp : Nat
  active : List Nat
  ended : List Nat
  commits : List (List Nat)
  reached : Nat
  hist : List Write

/-- What `bread` returns. -/
def State.content (s : State) (b : Nat) : Block :=
  match s.cache b with
  | some buf => buf.data
  | none => s.disk b

/-- `bwrite`: the block goes to the disk and its buffer is clean. -/
def State.bwrite (s : State) (b : Nat) (data : Block) : State :=
  { s with
    disk := Function.update s.disk b data
    cache := Function.update s.cache b (some { data := data, dirty := false }) }

/-- The operations of the commits that reached the disk. -/
def State.reachedOps (s : State) : List Nat := (s.commits.take s.reached).flatten

/-! ## The functions -/

/-- `begin_op`. `none` while it sleeps. -/
def begin_op (s : State) : Option State :=
  if s.ctl = .idle ∧ s.committing = false ∧
      s.lh.length + (s.outstanding + 1) * MAXOPBLOCKS ≤ LOGSIZE then
    some { s with
      outstanding := s.outstanding + 1
      nextOp := s.nextOp + 1
      active := s.nextOp :: s.active }
  else none

/-- What `log_write` does under `log.lock`: the block is in the header once, and it is pinned. -/
def State.record (s : State) (op b : Nat) (data : Block) : State :=
  { s with
    cache := Function.update s.cache b (some { data := data, dirty := true })
    lh := if b ∈ s.lh then s.lh else s.lh ++ [b]
    hist := s.hist ++ [{ op := op, block := b, data := data }] }

/-- The first half of `log_write`. -/
def log_check (r : Region) (s : State) (op : Nat) : State :=
  if LOGSIZE ≤ s.lh.length ∨ r.size - 1 ≤ s.lh.length then
    { s with panicked := some "too big a transaction" }
  else if s.outstanding < 1 then { s with panicked := some "log_write outside of trans" }
  else { s with passed := op :: s.passed }

/-- The second half, for a buffer that now holds `data`. -/
def log_write (s : State) (op b : Nat) (data : Block) : State :=
  { s.record op b data with passed := s.passed.erase op }

/-- `end_op`. The last operation out starts the commit, and a commit of nothing is over at once. -/
def end_op (s : State) (op : Nat) : Option State :=
  if s.committing then none
  else
    let s := { s with outstanding := s.outstanding - 1, active := s.active.erase op }
    if s.outstanding = 0 then
      let s := { s with commits := s.commits ++ [s.ended ++ [op]], ended := [] }
      if s.lh = [] then some { s with reached := s.reached + 1 }
      else some { s with committing := true, ctl := .writeLog 0 }
    else some { s with ended := s.ended ++ [op] }

/-- One round of `install_trans`, or its end. -/
def install_trans (r : Region) (s : State) (tail : Nat) (go : Nat → Ctl) (done : Ctl) : State :=
  match s.lh[tail]? with
  | some b => { s.bwrite b (s.content (r.start + 1 + tail)) with ctl := go (tail + 1) }
  | none => { s with lh := [], ctl := done }

def write_head (r : Region) (s : State) : State :=
  s.bwrite r.start (putHeader (s.content r.start) s.lh)

/-- The next disk write of `commit`. -/
def commit (r : Region) (s : State) : Option State :=
  match s.ctl with
  | .writeLog tail =>
    match s.lh[tail]? with
    | some b => some { s.bwrite (r.start + 1 + tail) (s.content b) with ctl := .writeLog (tail + 1) }
    | none => some { s with ctl := .writeHead }
  | .writeHead => some { write_head r s with ctl := .install 0, reached := s.reached + 1 }
  | .install tail => some (install_trans r s tail .install .clearHead)
  | .clearHead => some { write_head r s with ctl := .idle, committing := false }
  | _ => none

/-- The machine loses its memory. -/
def crash (s : State) : State :=
  { s with
    cache := fun _ => none
    lh := []
    outstanding := 0
    committing := false
    ctl := .down
    passed := []
    panicked := none
    active := []
    ended := [] }

/-- The next disk write of `recover_from_log`. When it is done, what did not reach the disk is out
of the history. -/
def recover_from_log (r : Region) (s : State) : Option State :=
  match s.ctl with
  | .down => some { s with lh := getHeader (s.content r.start), ctl := .recover 0 }
  | .recover tail => some (install_trans r s tail .recover .recoverClear)
  | .recoverClear =>
    some { write_head r s with
      ctl := .idle
      commits := s.commits.take s.reached
      hist := s.hist.filter fun w => w.op ∈ s.reachedOps }
  | _ => none

inductive Act
  | begin_op
  | log_check (op : Nat)
  | log_write (op b : Nat) (data : Block)
  | end_op (op : Nat)
  /-- A block is read into the cache. -/
  | fill (b : Nat)
  /-- A buffer is recycled. -/
  | evict (b : Nat)
  | commit
  | crash
  | recover_from_log

/-- A step of a machine that has not panicked. An operation writes only between its `begin_op` and its
`end_op`, and only home blocks. An entry past the end of `log.lh.block` is not modelled. -/
def up (r : Region) (s : State) : Act → Option State
  | .begin_op => begin_op s
  | .log_check op => if op ∈ s.active ∧ op ∉ s.passed then some (log_check r s op) else none
  | .log_write op b data =>
    if op ∈ s.active ∧ op ∈ s.passed ∧ r.Home b ∧ (b ∈ s.lh ∨ s.lh.length < LOGSIZE) then
      some (log_write s op b data)
    else none
  | .end_op op => if op ∈ s.active ∧ op ∉ s.passed then end_op s op else none
  | .fill b =>
    if s.ctl ≠ .down ∧ (s.cache b).isNone then
      some { s with cache := Function.update s.cache b (some { data := s.disk b, dirty := false }) }
    else none
  | .evict b =>
    match s.cache b with
    | some buf =>
      if buf.dirty then none else some { s with cache := Function.update s.cache b none }
    | none => none
  | .commit => commit r s
  | .crash => some (crash s)
  | .recover_from_log => recover_from_log r s

def Act.isCrash : Act → Bool
  | .crash => true
  | _ => false

/-- After a panic the machine can only be turned off. -/
def next (r : Region) (s : State) (a : Act) : Option State :=
  if s.panicked.isSome ∧ a.isCrash = false then none else up r s a

/-! ## What it is for -/

/-- The disk after the writes of `ws`, in order. -/
def replay (ws : List Write) (d : Nat → Block) : Nat → Block :=
  Writes.apply (ws.map fun w => (w.block, w.data)) d

/-- A booted machine with an empty log, on the disk `d`. -/
def Fresh (r : Region) (d : Nat → Block) (s : State) : Prop :=
  s.disk = d ∧ d r.start 0 = 0 ∧ s.cache = (fun _ => none) ∧ s.lh = [] ∧ s.outstanding = 0 ∧
  s.committing = false ∧ s.ctl = .idle ∧ s.passed = [] ∧ s.panicked = none ∧ s.active = [] ∧
  s.ended = [] ∧ s.commits = [] ∧ s.reached = 0 ∧ s.hist = []

end Xv6.Log
