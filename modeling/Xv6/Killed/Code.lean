import Xv6.Lib.Run
import Xv6.Pipe.Code

/-!
# `kill` and the waits that it interrupts

The wait loops of `pipewrite`, `piperead`, `consoleread`, `sys_sleep` and `wait`, with `sleep`, `wakeup` and
`kill` of `proc.c`, for any processes. The test of `killed` and every change of a lock is a step of its own.
Bytes, ticks and children come and go at will. What a function does after its loop is left open too: it
comes back to the loop for the next byte, or it releases the lock and returns.
-/

namespace Xv6.Killed

/-- A wait loop. `pipe` is a pipe, and `ticks0` and `n` are variables of `sys_sleep`. -/
inductive Loop
  | pipewrite (pipe : Nat)
  | piperead (pipe : Nat)
  | consoleread
  | sleep (ticks0 n : BitVec 32)
  | wait
  deriving DecidableEq

/-- `p->lock` of a pipe, `cons.lock`, `tickslock` and `ptable.lock` -/
inductive Lock
  | pipe (pipe : Nat)
  | cons
  | ticks
  | ptable
  deriving DecidableEq

/-- `&p->nwrite` and `&p->nread` of a pipe, `&input.r`, `&ticks`, and a process -/
inductive Chan (ι : Type)
  | nwrite (pipe : Nat)
  | nread (pipe : Nat)
  | input
  | ticks
  | proc (i : ι)
  deriving DecidableEq

/-- The lock that the loop gives to `sleep`. -/
def Loop.lock : Loop → Lock
  | .pipewrite k => .pipe k
  | .piperead k => .pipe k
  | .consoleread => .cons
  | .sleep _ _ => .ticks
  | .wait => .ptable

/-- The channel that process `i` gives to `sleep`. -/
def Loop.chan {ι : Type} (i : ι) : Loop → Chan ι
  | .pipewrite k => .nwrite k
  | .piperead k => .nread k
  | .consoleread => .input
  | .sleep _ _ => .ticks
  | .wait => .proc i

inductive ProcState
  | SLEEPING
  | RUNNABLE
  | RUNNING
  deriving DecidableEq

structure PipeData where
  nread : BitVec 32
  nwrite : BitVec 32
  readopen : Bool
  writeopen : Bool

/-- What the loops wait for. `zombie i` says that the scan of `wait` finds an exited child of `i`. -/
structure Data (ι : Type) where
  pipe : Nat → PipeData
  r : BitVec 32
  w : BitVec 32
  ticks : BitVec 32
  havekids : ι → Bool
  zombie : ι → Bool

/-- The condition of the loop: there is nothing for process `i` yet. -/
def Data.waits {ι : Type} (d : Data ι) (i : ι) : Loop → Bool
  | .pipewrite k => (d.pipe k).nwrite == (d.pipe k).nread + BitVec.ofNat 32 Pipe.PIPESIZE
  | .piperead k => (d.pipe k).nread == (d.pipe k).nwrite && (d.pipe k).writeopen
  | .consoleread => d.r == d.w
  | .sleep ticks0 n => (d.ticks - ticks0).ult n
  | .wait => !d.zombie i

/-- What is tested along with `killed`: `p->readopen == 0` in `pipewrite`, and `!havekids` in `wait`. -/
def Data.hopeless {ι : Type} (d : Data ι) (i : ι) : Loop → Bool
  | .pipewrite k => !(d.pipe k).readopen
  | .wait => !d.havekids i
  | _ => false

/-- The next statement of a process. -/
inductive Pc (ι : Type)
  | out
  /-- The first `acquire` of the function. -/
  | enter (l : Loop)
  /-- The condition of the loop, and the test of `killed`. -/
  | cond (l : Loop)
  | test (l : Loop)
  /-- `wakeup(&p->nread)` in `pipewrite` -/
  | wake (pipe : Nat)
  /-- In `sleep`: `acquire(&ptable.lock)`, `release(lk)`, `p->chan = chan; p->state = SLEEPING`, and `sched`. -/
  | sleep (l : Loop)
  | release (l : Loop)
  | state (l : Loop)
  | sched (l : Loop)
  /-- Off the CPU, in `sleep`. -/
  | asleep (l : Loop)
  /-- At the end of `sleep`: `p->chan = 0` and `release(&ptable.lock)`, then `acquire(lk)`. -/
  | tidy (l : Loop)
  | again (l : Loop)
  /-- With the lock, after the loop. -/
  | body (l : Loop)
  /-- `release(lk)`, and the function returns. -/
  | leave (l : Loop)
  /-- In `kill` of process `p`: `acquire(&ptable.lock)`, `p->killed = 1`, the test of `p->state`,
  `release(&ptable.lock)`. -/
  | killAcquire (p : ι)
  | killSet (p : ι)
  | killWake (p : ι)
  | killRelease (p : ι)
  deriving DecidableEq

/-- `returned p` is history: a `kill` of `p` has returned. -/
structure State (ι : Type) where
  data : Data ι
  lock : Lock → Option ι
  state : ι → ProcState
  chan : ι → Option (Chan ι)
  killed : ι → Bool
  pc : ι → Pc ι
  returned : ι → Bool

variable {ι : Type}

def init (d : Data ι) : State ι where
  data := d
  lock := fun _ => none
  state := fun _ => .RUNNING
  chan := fun _ => none
  killed := fun _ => false
  pc := fun _ => .out
  returned := fun _ => false

variable [DecidableEq ι]

def State.goto (s : State ι) (i : ι) (pc : Pc ι) : State ι := { s with pc := Function.update s.pc i pc }

def State.setState (s : State ι) (p : ι) (st : ProcState) : State ι :=
  { s with state := Function.update s.state p st }

def State.acquire (s : State ι) (m : Lock) (i : ι) (pc : Pc ι) : Option (State ι) :=
  match s.lock m with
  | none => some { s.goto i pc with lock := Function.update s.lock m (some i) }
  | some _ => none

def State.release (s : State ι) (m : Lock) (i : ι) (pc : Pc ι) : State ι :=
  { s.goto i pc with lock := Function.update s.lock m none }

/-- `wakeup1(c)` -/
def State.wakeup1 (s : State ι) (c : Chan ι) : State ι :=
  { s with state := fun j => if s.state j = .SLEEPING ∧ s.chan j = some c then .RUNNABLE else s.state j }

/-- `ticks0 = ticks` in `sys_sleep`. -/
def Loop.start (d : Data ι) : Loop → Loop
  | .sleep _ n => .sleep d.ticks n
  | l => l

/-- The next statement of process `i`. `none` while it waits for a lock or a CPU. -/
def step (s : State ι) (i : ι) : Option (State ι) :=
  match s.pc i with
  | .enter l => s.acquire l.lock i (.cond (l.start s.data))
  | .cond l => some (s.goto i (if s.data.waits i l then .test l else .body l))
  | .test l =>
    if s.data.hopeless i l || s.killed i then some (s.goto i (.leave l))
    else
      match l with
      | .pipewrite k => some (s.goto i (.wake k))
      -- `if(lk != &ptable.lock)` in `sleep`
      | .wait => some (s.goto i (.state .wait))
      | l => some (s.goto i (.sleep l))
  | .wake k =>
    if (s.lock .ptable).isNone then some ((s.wakeup1 (.nread k)).goto i (.sleep (.pipewrite k))) else none
  | .sleep l => s.acquire .ptable i (.release l)
  | .release l => some (s.release l.lock i (.state l))
  | .state l =>
    some ({ s.setState i .SLEEPING with chan := Function.update s.chan i (some (l.chan i)) }.goto i (.sched l))
  -- the scheduler has the lock for a moment
  | .sched l => some (s.release .ptable i (.asleep l))
  | .tidy l =>
    let s := { s with chan := Function.update s.chan i none }
    if l.lock = .ptable then some (s.goto i (.cond l)) else some (s.release .ptable i (.again l))
  | .again l => s.acquire l.lock i (.cond l)
  | .leave l => some (s.release l.lock i .out)
  | .killAcquire p => s.acquire .ptable i (.killSet p)
  | .killSet p => some { s.goto i (.killWake p) with killed := Function.update s.killed p true }
  | .killWake p =>
    if s.state p = .SLEEPING then some ((s.setState p .RUNNABLE).goto i (.killRelease p))
    else some (s.goto i (.killRelease p))
  | .killRelease p =>
    some { s.release .ptable i .out with returned := Function.update s.returned p true }
  | .out => none
  | .asleep _ => none
  | .body _ => none

inductive Act (ι : Type)
  | call (i : ι) (l : Loop)
  /-- `kill` by process `i`, which finds process `p`. -/
  | kill (i p : ι)
  | step (i : ι)
  /-- The function goes on after its loop: back to it, or out. -/
  | body (i : ι) (again : Bool)
  /-- The scheduler runs process `i`, which comes back into `sleep`. -/
  | sched (i : ι)
  /-- A `wakeup` by somebody else. -/
  | wakeup (c : Chan ι)
  /-- Bytes, ticks and children come and go. -/
  | data (d : Data ι)

def next (s : State ι) : Act ι → Option (State ι)
  | .call i l => if s.pc i = .out then some (s.goto i (.enter l)) else none
  | .kill i p => if s.pc i = .out then some (s.goto i (.killAcquire p)) else none
  | .step i => step s i
  | .body i again =>
    match s.pc i with
    | .body l => some (s.goto i (if again then .cond l else .leave l))
    | _ => none
  | .sched i =>
    match s.pc i with
    | .asleep l =>
      if s.state i = .RUNNABLE then (s.setState i .RUNNING).acquire .ptable i (.tidy l) else none
    | _ => none
  | .wakeup c => if (s.lock .ptable).isNone then some (s.wakeup1 c) else none
  | .data d => some { s with data := d }

end Xv6.Killed
