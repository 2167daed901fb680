import Xv6.Lib.Run

/-!
# Pipes

`pipe.c` for any number of processes, one statement at a time, with `sleep`, `wakeup` and `kill` of
`proc.c`. What is done under `ptable.lock` alone is one step: `wakeup`, `kill`, and the end of `sleep`.
Which ends of the pipe a process has open is not looked at, so it can make any call at any time.
-/

namespace Xv6.Pipe

def PIPESIZE : Nat := 512

/-- `&p->nread` and `&p->nwrite` -/
inductive Chan
  | nread
  | nwrite
  deriving DecidableEq

/-- Where a process goes on after a `sleep`. -/
inductive Back
  | write (buf : List UInt8) (i : Nat)
  | read (n : Nat)

/-- The next statement of a process. From an `acquire` to its `release` it has `p->lock`. -/
inductive Pc
  | out
  | writeAcquire (buf : List UInt8)
  /-- The loops of `pipewrite`. `woke` is what `i` was at the last `wakeup(&p->nread)`. -/
  | writeLoop (buf : List UInt8) (i woke : Nat)
  | writeWake (buf : List UInt8) (i : Nat)
  | writeSleep (buf : List UInt8) (i : Nat)
  | writeDone
  | readAcquire (n : Nat)
  | readWait (n : Nat)
  | readSleep (n : Nat)
  | readCopy (n : Nat) (got : List UInt8)
  | readDone
  | closeAcquire (writable : Bool)
  | closeFlag (writable : Bool)
  | closeWake (writable : Bool)
  | release
  /-- In `sleep`, with `ptable.lock` and without `p->lock`, not yet `SLEEPING`. -/
  | doze (c : Chan) (back : Back)
  /-- `SLEEPING` -/
  | asleep (c : Chan) (back : Back)
  /-- `RUNNABLE`, after a `wakeup` or a `kill` -/
  | ready (back : Back)
  /-- `RUNNING` again, at the `acquire` at the end of `sleep` -/
  | awake (back : Back)

/-- The pipe, the two locks and the processes. `stored` and `handed` are the history: every byte that
went into the pipe and every byte that a reader got, in order. -/
structure State (ι : Type) where
  data : Nat → UInt8
  nread : BitVec 32
  nwrite : BitVec 32
  readopen : Bool
  writeopen : Bool
  lock : Option ι
  ptable : Option ι
  pc : ι → Pc
  killed : ι → Bool
  stored : List UInt8
  handed : List UInt8

variable {ι : Type}

/-- `pipealloc`, with counters that start at `c`. -/
def init (c : BitVec 32) (data : Nat → UInt8) : State ι where
  data := data
  nread := c
  nwrite := c
  readopen := true
  writeopen := true
  lock := none
  ptable := none
  pc := fun _ => .out
  killed := fun _ => false
  stored := []
  handed := []

def State.full (s : State ι) : Bool := s.nwrite == s.nread + BitVec.ofNat 32 PIPESIZE

def State.empty (s : State ι) : Bool := s.nread == s.nwrite

/-- What `wakeup(c)` makes of one process. -/
def Pc.wake (c : Chan) : Pc → Pc
  | .asleep c' back => if c' = c then .ready back else .asleep c' back
  | pc => pc

def State.wakeup (s : State ι) (c : Chan) : State ι := { s with pc := fun j => (s.pc j).wake c }

/-- `p->data[p->nwrite++ % PIPESIZE] = b` -/
def State.store (s : State ι) (b : UInt8) : State ι :=
  { s with
    data := Function.update s.data (s.nwrite.toNat % PIPESIZE) b
    nwrite := s.nwrite + 1
    stored := s.stored ++ [b] }

/-- `p->data[p->nread % PIPESIZE]` -/
def State.front (s : State ι) : UInt8 := s.data (s.nread.toNat % PIPESIZE)

def State.take (s : State ι) : State ι :=
  { s with nread := s.nread + 1, handed := s.handed ++ [s.front] }

/-- Where a process is once it has the lock again. -/
def Back.resume : Back → Pc
  | .write buf i => .writeLoop buf i i
  | .read n => .readWait n

variable [DecidableEq ι]

def State.goto (s : State ι) (i : ι) (pc : Pc) : State ι :=
  { s with pc := Function.update s.pc i pc }

/-- `acquire(&p->lock)`, when it is free. -/
def State.acquire (s : State ι) (i : ι) (pc : Pc) : Option (State ι) :=
  if s.lock.isNone then some { s.goto i pc with lock := some i } else none

/-- `wakeup(c)`, when `ptable.lock` is free. -/
def State.wakeThen (s : State ι) (i : ι) (c : Chan) (pc : Pc) : Option (State ι) :=
  if s.ptable.isNone then some ((s.wakeup c).goto i pc) else none

/-- `sleep(c, &p->lock)` up to `release(lk)`, when `ptable.lock` is free. -/
def State.fallAsleep (s : State ι) (i : ι) (c : Chan) (back : Back) : Option (State ι) :=
  if s.ptable.isNone then some { s.goto i (.doze c back) with lock := none, ptable := some i } else none

/-- The next statement of process `i`. `none` while it waits. -/
def step (s : State ι) (i : ι) : Option (State ι) :=
  match s.pc i with
  | .writeAcquire buf => s.acquire i (.writeLoop buf 0 0)
  | .writeLoop buf k woke =>
    match buf[k]? with
    | none => some (s.goto i .writeDone)
    | some b =>
      if s.full then
        -- the early `return -1`
        if s.readopen = false ∨ s.killed i = true then some (s.goto i .release)
        else some (s.goto i (.writeWake buf k))
      else some ((s.store b).goto i (.writeLoop buf (k + 1) woke))
  | .writeWake buf k => s.wakeThen i .nread (.writeSleep buf k)
  | .writeSleep buf k => s.fallAsleep i .nwrite (.write buf k)
  | .writeDone => s.wakeThen i .nread .release
  | .readAcquire n => s.acquire i (.readWait n)
  | .readWait n =>
    if s.empty ∧ s.writeopen = true then
      if s.killed i then some (s.goto i .release) else some (s.goto i (.readSleep n))
    else some (s.goto i (.readCopy n []))
  | .readSleep n => s.fallAsleep i .nread (.read n)
  | .readCopy n got =>
    if got.length < n ∧ s.empty = false then some (s.take.goto i (.readCopy n (got ++ [s.front])))
    else some (s.goto i .readDone)
  | .readDone => s.wakeThen i .nwrite .release
  | .closeAcquire w => s.acquire i (.closeFlag w)
  | .closeFlag w =>
    if w then some { s.goto i (.closeWake w) with writeopen := false }
    else some { s.goto i (.closeWake w) with readopen := false }
  | .closeWake w => s.wakeThen i (if w then .nread else .nwrite) .release
  | .release => some { s.goto i .out with lock := none }
  | .doze c back => some { s.goto i (.asleep c back) with ptable := none }
  | .awake back => s.acquire i back.resume
  | .out => none
  | .asleep _ _ => none
  | .ready _ => none

inductive Act (ι : Type)
  | write (i : ι) (buf : List UInt8)
  | read (i : ι) (n : Nat)
  | close (i : ι) (writable : Bool)
  /-- The next statement of `i`. -/
  | step (i : ι)
  /-- The scheduler runs `i` again. -/
  | sched (i : ι)
  | kill (i : ι)

def Pc.isOut : Pc → Bool
  | .out => true
  | _ => false

/-- `kill` makes a `SLEEPING` process `RUNNABLE`. -/
def Pc.kill : Pc → Pc
  | .asleep _ back => .ready back
  | pc => pc

def next (s : State ι) : Act ι → Option (State ι)
  | .write i buf => if (s.pc i).isOut then some (s.goto i (.writeAcquire buf)) else none
  | .read i n => if (s.pc i).isOut then some (s.goto i (.readAcquire n)) else none
  | .close i w => if (s.pc i).isOut then some (s.goto i (.closeAcquire w)) else none
  | .step i => step s i
  | .sched i =>
    match s.pc i with
    | .ready back => some (s.goto i (.awake back))
    | _ => none
  | .kill i =>
    if s.ptable.isNone then
      some { s.goto i (s.pc i).kill with killed := Function.update s.killed i true }
    else none

end Xv6.Pipe
