import Xv6.Lib.Run

/-!
# `sleep` and `wakeup`

`sleep`, `wakeup1`, `wakeup`, `yield`, `kill`, `sched` and `scheduler` of `proc.c`, one statement at a
time, for any number of processes and CPUs. The processes follow the protocol of `sleep` and `wakeup`: a
channel has a condition and a lock, the condition is tested and changed with the lock held, and whoever
makes it true calls `wakeup`. `acquiresleep` and `releasesleep` do so, with the condition that `lk->locked`
is 0, and so do `wait` and `exit`, whose lock is `ptable.lock`.

A lock is an `Option L`, and `none` is `ptable.lock`.
-/

namespace Xv6.Sleep

inductive ProcState
  | SLEEPING
  | RUNNABLE
  | RUNNING
  deriving DecidableEq

/-- The next statement of a process. -/
inductive Pc (n : Nat) (χ : Type)
  /-- Off the CPU, in `yield` or before the first run. -/
  | off
  /-- Outside of the protocol, with no lock. -/
  | idle
  /-- The sleeper: `acquire(lk)`, and the test of the condition. -/
  | sAcquire (c : χ)
  | sTest (c : χ)
  /-- In `sleep`: `acquire(&ptable.lock)`, `release(lk)`, `p->chan = chan`, `p->state = SLEEPING`, and the
  `swtch` of `sched`. -/
  | sPtable (c : χ)
  | sRelease (c : χ)
  | sChan (c : χ)
  | sState (c : χ)
  | sSched (c : χ)
  /-- Off the CPU, in `sleep`. -/
  | asleep (c : χ)
  /-- At the end of `sleep`: `p->chan = 0`, `release(&ptable.lock)`. -/
  | sTidy (c : χ)
  | sUnlock (c : χ)
  /-- With the lock, after the condition was found true. -/
  | sDone (c : χ)
  /-- `release(lk)` -/
  | leave (c : χ)
  /-- The waker: `acquire(lk)`, the condition comes true. -/
  | wAcquire (c : χ)
  | wSet (c : χ)
  /-- In `wakeup`: `acquire(&ptable.lock)`, `wakeup1` at the slot `k`, `release(&ptable.lock)`. -/
  | wPtable (c : χ)
  | wScan (c : χ) (k : Nat)
  | wUnlock (c : χ)
  /-- In `yield`: `acquire(&ptable.lock)`, `state = RUNNABLE`, the `swtch` of `sched`,
  `release(&ptable.lock)`. -/
  | yAcquire
  | yState
  | ySched
  | yRelease
  /-- In `kill` of the process in slot `p`: `acquire(&ptable.lock)`, `p->state = RUNNABLE`,
  `release(&ptable.lock)`. -/
  | kAcquire (p : Fin n)
  | kState (p : Fin n)
  | kRelease

/-- What a CPU does: it is at the start of the loop of `scheduler`, in the loop over the table, or runs a
process. -/
inductive Cpu (n : Nat)
  | loop
  | scan
  | run (p : Fin n)

/-- Who has a lock. `sched` hands `ptable.lock` from a process to the scheduler of its CPU, and the
scheduler to the next process. -/
inductive Holder (n : Nat) (κ : Type)
  | proc (i : Fin n)
  | cpu (k : κ)

structure State (n : Nat) (κ χ L : Type) where
  lock : Option L → Option (Holder n κ)
  cond : χ → Bool
  state : Fin n → ProcState
  chan : Fin n → Option χ
  pc : Fin n → Pc n χ
  cpu : κ → Cpu n

variable {n : Nat} {κ χ L : Type}

/-- Every process is to run for the first time, and the conditions are as they are. -/
def init (cond : χ → Bool) : State n κ χ L where
  lock := fun _ => none
  cond := cond
  state := fun _ => .RUNNABLE
  chan := fun _ => none
  pc := fun _ => .off
  cpu := fun _ => .loop

def State.goto (s : State n κ χ L) (i : Fin n) (pc : Pc n χ) : State n κ χ L :=
  { s with pc := Function.update s.pc i pc }

def State.setState (s : State n κ χ L) (p : Fin n) (st : ProcState) : State n κ χ L :=
  { s with state := Function.update s.state p st }

variable [DecidableEq χ] [DecidableEq L]

/-- `acquire(m)`, when it is free. -/
def State.acquire (s : State n κ χ L) (m : Option L) (i : Fin n) (pc : Pc n χ) :
    Option (State n κ χ L) :=
  match s.lock m with
  | none => some { s.goto i pc with lock := Function.update s.lock m (some (.proc i)) }
  | some _ => none

/-- `release(m)` -/
def State.release (s : State n κ χ L) (m : Option L) (i : Fin n) (pc : Pc n χ) : State n κ χ L :=
  { s.goto i pc with lock := Function.update s.lock m none }

/-- The next statement of process `i`. `none` while it waits for a lock or a CPU. -/
def step (lk : χ → Option L) (s : State n κ χ L) (i : Fin n) : Option (State n κ χ L) :=
  match s.pc i with
  | .sAcquire c => s.acquire (lk c) i (.sTest c)
  | .sTest c =>
    if s.cond c then some (s.goto i (.sDone c))
    else
      -- `if(lk != &ptable.lock)`
      match lk c with
      | some _ => some (s.goto i (.sPtable c))
      | none => some (s.goto i (.sChan c))
  | .sPtable c => s.acquire none i (.sRelease c)
  | .sRelease c => some (s.release (lk c) i (.sChan c))
  | .sChan c => some { s.goto i (.sState c) with chan := Function.update s.chan i (some c) }
  | .sState c => some ((s.setState i .SLEEPING).goto i (.sSched c))
  | .sTidy c =>
    let s := { s with chan := Function.update s.chan i none }
    match lk c with
    | some _ => some (s.goto i (.sUnlock c))
    | none => some (s.goto i (.sTest c))
  | .sUnlock c => some (s.release none i (.sAcquire c))
  | .sDone c => some (s.goto i (.leave c))
  | .leave c => some (s.release (lk c) i .idle)
  | .wAcquire c => s.acquire (lk c) i (.wSet c)
  | .wSet c =>
    let s := { s with cond := Function.update s.cond c true }
    -- with `ptable.lock` held the waker calls `wakeup1`
    match lk c with
    | some _ => some (s.goto i (.wPtable c))
    | none => some (s.goto i (.wScan c 0))
  | .wPtable c => s.acquire none i (.wScan c 0)
  | .wScan c k =>
    if h : k < n then
      if s.state ⟨k, h⟩ = .SLEEPING ∧ s.chan ⟨k, h⟩ = some c then
        some ((s.setState ⟨k, h⟩ .RUNNABLE).goto i (.wScan c (k + 1)))
      else some (s.goto i (.wScan c (k + 1)))
    else
      match lk c with
      | some _ => some (s.goto i (.wUnlock c))
      | none => some (s.goto i (.leave c))
  | .wUnlock c => some (s.release none i (.leave c))
  | .yAcquire => s.acquire none i .yState
  | .yState => some ((s.setState i .RUNNABLE).goto i .ySched)
  | .yRelease => some (s.release none i .idle)
  | .kAcquire p => s.acquire none i (.kState p)
  | .kState p =>
    if s.state p = .SLEEPING then some ((s.setState p .RUNNABLE).goto i .kRelease)
    else some (s.goto i .kRelease)
  | .kRelease => some (s.release none i .idle)
  | .off => none
  | .idle => none
  | .sSched _ => none
  | .asleep _ => none
  | .ySched => none

inductive Act (n : Nat) (κ χ : Type)
  /-- Process `i` starts to wait for the condition of `c`, to make it true, to yield, or to kill. -/
  | await (i : Fin n) (c : χ)
  | signal (i : Fin n) (c : χ)
  | yield (i : Fin n)
  | kill (i p : Fin n)
  | step (i : Fin n)
  /-- Process `i` has found the condition true and makes it false. -/
  | consume (i : Fin n)
  /-- The `swtch` of `sched`, on the CPU `k` that runs `i`. -/
  | swtch (k : κ) (i : Fin n)
  /-- The scheduler of CPU `k` acquires `ptable.lock`, picks a process, or releases the lock. -/
  | enter (k : κ)
  | pick (k : κ) (p : Fin n)
  | exit (k : κ)

variable [DecidableEq κ]

def next (lk : χ → Option L) (s : State n κ χ L) : Act n κ χ → Option (State n κ χ L)
  | .await i c =>
    match s.pc i with
    | .idle => some (s.goto i (.sAcquire c))
    | _ => none
  | .signal i c =>
    match s.pc i with
    | .idle => some (s.goto i (.wAcquire c))
    | _ => none
  | .yield i =>
    match s.pc i with
    | .idle => some (s.goto i .yAcquire)
    | _ => none
  | .kill i p =>
    match s.pc i with
    | .idle => some (s.goto i (.kAcquire p))
    | _ => none
  | .step i => step lk s i
  | .consume i =>
    match s.pc i with
    | .sDone c => some { s.goto i (.leave c) with cond := Function.update s.cond c false }
    | _ => none
  | .swtch k i =>
    match s.cpu k with
    | .run p =>
      if p = i then
        let s := { s with
          lock := Function.update s.lock none (some (.cpu k)), cpu := Function.update s.cpu k .scan }
        match s.pc i with
        | .sSched c => some (s.goto i (.asleep c))
        | .ySched => some (s.goto i .off)
        | _ => none
      else none
    | _ => none
  | .enter k =>
    match s.cpu k, s.lock none with
    | .loop, none => some { s with
        lock := Function.update s.lock none (some (.cpu k)), cpu := Function.update s.cpu k .scan }
    | _, _ => none
  | .pick k p =>
    match s.cpu k with
    | .scan =>
      if s.state p = .RUNNABLE then
        let s := { s.setState p .RUNNING with
          lock := Function.update s.lock none (some (.proc p)), cpu := Function.update s.cpu k (.run p) }
        match s.pc p with
        | .asleep c => some (s.goto p (.sTidy c))
        | .off => some (s.goto p .yRelease)
        | _ => none
      else none
    | _ => none
  | .exit k =>
    match s.cpu k with
    | .scan => some { s with
        lock := Function.update s.lock none none, cpu := Function.update s.cpu k .loop }
    | _ => none

end Xv6.Sleep
