import Xv6.Lib.Run
import Xv6.Param

/-!
# Waiting for the log

`begin_op`, `log_write` and `end_op` of `log.c` for any number of processes. A step is what is done under
one hold of `log.lock`, up to a `sleep` or a `wakeup`: these wait for `ptable.lock` with `log.lock` held.
What is done under `ptable.lock` alone is one step. The disk writes of `commit` are left out.
-/

namespace Xv6.LogWait

/-- The next statement of a process. -/
inductive Pc
  /-- Outside of an operation. -/
  | out
  /-- In `begin_op`, at `acquire(&log.lock)`, also that at the end of `sleep`. -/
  | beginOp
  /-- At `sleep(&log, &log.lock)`, with `log.lock`. -/
  | beginSleep
  /-- In `sleep`, with `ptable.lock` and without `log.lock`, not yet `SLEEPING`. -/
  | doze
  /-- `SLEEPING` on `&log` -/
  | asleep
  /-- `RUNNABLE`, after a `wakeup` or a `kill` -/
  | ready
  /-- In an operation. -/
  | inOp
  /-- In `log_write`, after its tests, at `acquire(&log.lock)`. -/
  | logWrite (blockno : Nat)
  /-- In `end_op`, at the first `acquire(&log.lock)`. -/
  | endOp
  /-- At the `wakeup(&log)` of an operation that was not the last, with `log.lock`. -/
  | endWake
  /-- At the test of `commit`. -/
  | commit
  /-- `write_log`, `write_head`, `install_trans`, and then `log.lh.n = 0`. -/
  | install
  /-- The last `write_head`. -/
  | eraseHead
  /-- In `end_op`, at the second `acquire(&log.lock)`. -/
  | clear
  /-- At the `wakeup(&log)` after `log.committing = 0`, with `log.lock`. -/
  | clearWake
  deriving DecidableEq

/-- `lh` is `log.lh.block` up to `log.lh.n`, and `size` is `log.size`. -/
structure State (ι : Type) where
  lh : List Nat
  size : Nat
  outstanding : Int
  committing : Bool
  lock : Option ι
  ptable : Option ι
  pc : ι → Pc
  panicked : Option String

variable {ι : Type}

/-- After `initlog`. -/
def init (size : Nat) : State ι where
  lh := []
  size := size
  outstanding := 0
  committing := false
  lock := none
  ptable := none
  pc := fun _ => .out
  panicked := none

def State.panic (s : State ι) (msg : String) : State ι := { s with panicked := some msg }

/-- What `wakeup(&log)` or a `kill` makes of a process. -/
def Pc.wake : Pc → Pc
  | .asleep => .ready
  | pc => pc

def State.wakeup (s : State ι) : State ι := { s with pc := fun j => (s.pc j).wake }

/-- The loop of `log_write` and what follows it. -/
def State.record (s : State ι) (blockno : Nat) : State ι :=
  { s with lh := if blockno ∈ s.lh then s.lh else s.lh ++ [blockno] }

/-- The tests of `begin_op`. -/
def State.mustWait (s : State ι) : Bool :=
  s.committing || decide ((LOGSIZE : Int) < s.lh.length + (s.outstanding + 1) * MAXOPBLOCKS)

variable [DecidableEq ι]

def State.goto (s : State ι) (i : ι) (pc : Pc) : State ι := { s with pc := Function.update s.pc i pc }

/-- `begin_op` from `acquire` to `sleep` or `release`. -/
def begin_op (s : State ι) (i : ι) : State ι :=
  if s.mustWait then { s.goto i .beginSleep with lock := some i }
  else { s.goto i .inOp with outstanding := s.outstanding + 1 }

/-- `log_write` up to `acquire`. -/
def log_write (s : State ι) (i : ι) (blockno : Nat) : State ι :=
  if LOGSIZE ≤ s.lh.length ∨ s.size - 1 ≤ s.lh.length then s.panic "too big a transaction"
  else if s.outstanding < 1 then s.panic "log_write outside of trans"
  else s.goto i (.logWrite blockno)

/-- `end_op` from the first `acquire` to `wakeup` or `release`. -/
def end_op (s : State ι) (i : ι) : State ι :=
  let s := { s with outstanding := s.outstanding - 1 }
  if s.committing then s.panic "log.committing"
  else if s.outstanding = 0 then { s.goto i .commit with committing := true }
  else { s.goto i .endWake with lock := some i }

/-- The next step of process `i`. `none` while it waits. -/
def step (s : State ι) (i : ι) : Option (State ι) :=
  match s.pc i with
  | .beginOp => if s.lock.isNone then some (begin_op s i) else none
  | .beginSleep =>
    if s.ptable.isNone then some { s.goto i .doze with lock := none, ptable := some i } else none
  | .doze => some { s.goto i .asleep with ptable := none }
  | .logWrite b => if s.lock.isNone then some ((s.record b).goto i .inOp) else none
  | .endOp => if s.lock.isNone then some (end_op s i) else none
  | .endWake => if s.ptable.isNone then some { s.wakeup.goto i .out with lock := none } else none
  | .commit => if s.lh = [] then some (s.goto i .clear) else some (s.goto i .install)
  | .install => some { s.goto i .eraseHead with lh := [] }
  | .eraseHead => some (s.goto i .clear)
  | .clear =>
    if s.lock.isNone then some { s.goto i .clearWake with committing := false, lock := some i } else none
  | .clearWake => if s.ptable.isNone then some { s.wakeup.goto i .out with lock := none } else none
  | .out => none
  | .asleep => none
  | .ready => none
  | .inOp => none

inductive Act (ι : Type)
  | begin_op (i : ι)
  | log_write (i : ι) (blockno : Nat)
  | end_op (i : ι)
  /-- The next step of `i`. -/
  | step (i : ι)
  /-- The scheduler runs `i` again. -/
  | sched (i : ι)
  | kill (i : ι)

def act (s : State ι) : Act ι → Option (State ι)
  | .begin_op i => if s.pc i = .out then some (s.goto i .beginOp) else none
  | .log_write i b => if s.pc i = .inOp then some (log_write s i b) else none
  | .end_op i => if s.pc i = .inOp then some (s.goto i .endOp) else none
  | .step i => step s i
  | .sched i => if s.pc i = .ready then some (s.goto i .beginOp) else none
  | .kill i => if s.ptable.isNone then some (s.goto i (s.pc i).wake) else none

def next (s : State ι) (a : Act ι) : Option (State ι) := if s.panicked.isSome then none else act s a

end Xv6.LogWait
