import Xv6.Lib.Run
import Xv6.Param

/-!
# The process table

`proc.c` as the process table sees it. A step is what a process does under one hold of `ptable.lock`,
or one write to the table without the lock: `fork` gives back a slot, and sets the parent of its child,
with no lock held. What the processes do in between, and what memory they use, is left out: a `kalloc`
or `copyuvm` succeeds or fails at will.
-/

namespace Xv6.Ptable

instance : NeZero NPROC := ⟨by decide⟩

/-- A pointer into the table. -/
abbrev Slot := Fin NPROC

inductive ProcState
  | UNUSED
  | EMBRYO
  | SLEEPING
  | RUNNABLE
  | RUNNING
  | ZOMBIE
  deriving DecidableEq

/-- What a process sleeps on: a slot of the table in `wait`, some other address elsewhere. -/
inductive Chan
  | proc (i : Slot)
  | other (n : Nat)
  deriving DecidableEq

structure Proc where
  state : ProcState
  pid : BitVec 32
  parent : Option Slot
  chan : Option Chan
  killed : Bool

/-- Where a process is. -/
inductive Pc
  /-- Outside of `fork` and `wait`. -/
  | run
  /-- In `fork`, before the `kalloc` of `allocproc` for the child. -/
  | forkStack (np : Slot)
  /-- In `fork`, before `copyuvm`. -/
  | forkCopy (np : Slot)
  /-- In `fork`, before `np->parent = curproc`. -/
  | forkParent (np : Slot)
  /-- In `fork`, before `np->state = RUNNABLE`. -/
  | forkRun (np : Slot)
  /-- In the `sleep` of `wait`. -/
  | wait

/-- Where `userinit` is. -/
inductive Boot
  | start
  | embryo (p : Slot)
  | done

/-- What a call has returned: `wait` a pid or -1, `kill` 0 or -1. -/
inductive Said
  | wait (i : Slot) (pid : Option (BitVec 32))
  | kill (pid : BitVec 32) (found : Bool)
  deriving DecidableEq

/-- The table and the processes. The last fields are the history: the calls of `allocproc`, the children
of successful `fork`s with the pid of their creator, the pids that have exited, the pids that `wait` has
returned with the pid of its caller, whether the process in a slot had reason to die, and what the last
step returned. -/
structure State where
  proc : Slot → Proc
  initproc : Option Slot
  nextpid : BitVec 32
  pc : Slot → Pc
  boot : Boot
  panicked : Option String
  calls : Nat
  forked : List (BitVec 32 × BitVec 32)
  exited : List (BitVec 32)
  reaped : List (BitVec 32 × BitVec 32)
  blamed : Slot → Bool
  said : Option Said

/-- The table is in `.bss`. -/
def init : State where
  proc := fun _ => ⟨.UNUSED, 0, none, none, false⟩
  initproc := none
  nextpid := 1
  pc := fun _ => .run
  boot := .start
  panicked := none
  calls := 0
  forked := []
  exited := []
  reaped := []
  blamed := fun _ => false
  said := none

def State.set (s : State) (k : Slot) (p : Proc) : State := { s with proc := Function.update s.proc k p }

def State.goto (s : State) (i : Slot) (pc : Pc) : State := { s with pc := Function.update s.pc i pc }

def State.setState (s : State) (k : Slot) (st : ProcState) : State :=
  s.set k { s.proc k with state := st }

/-! ## The functions of `proc.c` -/

/-- The first loop of `allocproc`. -/
def State.unused (s : State) : Option Slot :=
  (List.finRange NPROC).find? fun k => (s.proc k).state = .UNUSED

/-- `allocproc` up to `release`. `killed` stays as it is. -/
def allocproc (s : State) : Option Slot × State :=
  let s := { s with calls := s.calls + 1 }
  match s.unused with
  | none => (none, s)
  | some np =>
    (some np, { s.set np { s.proc np with state := .EMBRYO, pid := s.nextpid } with
      nextpid := s.nextpid + 1, blamed := Function.update s.blamed np false })

def Proc.wakeup1 (c : Option Chan) (p : Proc) : Proc :=
  if p.state = .SLEEPING ∧ p.chan = c then { p with state := .RUNNABLE } else p

def wakeup1 (s : State) (c : Option Chan) : State := { s with proc := fun k => (s.proc k).wakeup1 c }

/-- One turn of the loop of `exit`, for the slot `k`. -/
def abandon (i : Slot) (s : State) (k : Slot) : State :=
  if (s.proc k).parent = some i then
    let s := s.set k { s.proc k with parent := s.initproc }
    if (s.proc k).state = .ZOMBIE then wakeup1 s (s.initproc.map .proc) else s
  else s

/-- `exit`, from `acquire` on. -/
def exit (s : State) (i : Slot) : State :=
  if s.initproc = some i then { s with panicked := some "init exiting" }
  else
    let pid := (s.proc i).pid
    let s := wakeup1 s ((s.proc i).parent.map .proc)
    let s := (List.finRange NPROC).foldl (abandon i) s
    { s.setState i .ZOMBIE with exited := s.exited ++ [pid] }

/-- The scan of `wait` for a child that has exited. -/
def State.zombie (s : State) (i : Slot) : Option Slot :=
  (List.finRange NPROC).find? fun k => (s.proc k).parent = some i ∧ (s.proc k).state = .ZOMBIE

def State.havekids (s : State) (i : Slot) : Bool :=
  (List.finRange NPROC).any fun k => (s.proc k).parent = some i

/-- One turn of the loop of `wait`: it returns, or sleeps again. -/
def wait (s : State) (i : Slot) : State :=
  match s.zombie i with
  | some k =>
    { (s.set k { s.proc k with state := .UNUSED, pid := 0, parent := none, killed := false }).goto i .run with
      reaped := s.reaped ++ [((s.proc k).pid, (s.proc i).pid)]
      said := some (.wait i (some (s.proc k).pid)) }
  | none =>
    if s.havekids i = false ∨ (s.proc i).killed = true then
      { s.goto i .run with said := some (.wait i none) }
    else (s.set i { s.proc i with state := .SLEEPING, chan := some (.proc i) }).goto i .wait

/-- The first slot that `kill` finds. It does not look at the state of the slot. -/
def State.find (s : State) (pid : BitVec 32) : Option Slot :=
  (List.finRange NPROC).find? fun k => (s.proc k).pid = pid

def Proc.kill (p : Proc) : Proc :=
  { p with killed := true, state := if p.state = .SLEEPING then .RUNNABLE else p.state }

def kill (s : State) (pid : BitVec 32) : State :=
  let s := { s with blamed := fun k => s.blamed k || (s.proc k).pid == pid }
  match s.find pid with
  | some k => { s.set k (s.proc k).kill with said := some (.kill pid true) }
  | none => { s with said := some (.kill pid false) }

/-! ## Steps -/

inductive Act
  /-- The next statement of `userinit`. -/
  | userinit
  | fork (i : Slot)
  /-- The next statement of a `fork`. `ok` says if a `kalloc` or `copyuvm` succeeds. -/
  | forkNext (i : Slot) (ok : Bool)
  | exit (i : Slot)
  | wait (i : Slot)
  | kill (i : Slot) (pid : BitVec 32)
  /-- An unexpected trap from user space. -/
  | trap (i : Slot)
  | sleep (i : Slot) (n : Nat)
  | wakeup (n : Nat)
  | yield (i : Slot)
  /-- The scheduler runs `i`. -/
  | sched (i : Slot)

/-- The process runs, and is not inside `fork`. -/
def State.free (s : State) (i : Slot) : Bool :=
  (s.proc i).state = .RUNNING && match s.pc i with
    | .run => true
    | _ => false

/-- `userinit`. When there is no memory for the first process the machine stops. -/
def userinit (s : State) : Option State :=
  match s.boot with
  | .start =>
    match allocproc s with
    | (some p, s) => some { s with initproc := some p, boot := .embryo p }
    | (none, _) => none
  | .embryo p => some { s.setState p .RUNNABLE with boot := .done }
  | .done => none

/-- The statements of `fork` after `allocproc` has taken a slot. -/
def forkNext (s : State) (i : Slot) (ok : Bool) : Option State :=
  match s.pc i with
  | .forkStack np =>
    if ok then some (s.goto i (.forkCopy np)) else some ((s.setState np .UNUSED).goto i .run)
  | .forkCopy np =>
    if ok then some (s.goto i (.forkParent np)) else some ((s.setState np .UNUSED).goto i .run)
  | .forkParent np => some ((s.set np { s.proc np with parent := some i }).goto i (.forkRun np))
  | .forkRun np =>
    some { (s.setState np .RUNNABLE).goto i .run with
      forked := s.forked ++ [((s.proc np).pid, (s.proc i).pid)] }
  | .run => none
  | .wait => none

/-- The scheduler gives `i` the CPU. A process that comes back into `wait` still has the lock and scans
the table again. -/
def sched (s : State) (i : Slot) : State :=
  match s.pc i with
  | .wait => wait (s.set i { s.proc i with state := .RUNNING, chan := none }) i
  | _ => s.set i { s.proc i with state := .RUNNING, chan := none }

def act (s : State) : Act → Option State
  | .userinit => userinit s
  | .fork i =>
    if s.free i then
      match allocproc s with
      | (some np, s) => some (s.goto i (.forkStack np))
      | (none, s) => some s
    else none
  | .forkNext i ok => if (s.proc i).state = .RUNNING then forkNext s i ok else none
  | .exit i => if s.free i then some (exit s i) else none
  | .wait i => if s.free i then some (wait s i) else none
  | .kill i pid => if s.free i then some (kill s pid) else none
  | .trap i =>
    if s.free i then
      some { s.set i { s.proc i with killed := true } with blamed := Function.update s.blamed i true }
    else none
  | .sleep i n =>
    if s.free i then some (s.set i { s.proc i with state := .SLEEPING, chan := some (.other n) })
    else none
  | .wakeup n => some (wakeup1 s (some (.other n)))
  | .yield i => if (s.proc i).state = .RUNNING then some (s.setState i .RUNNABLE) else none
  | .sched i => if (s.proc i).state = .RUNNABLE then some (sched s i) else none

/-- A step of a machine that has not stopped. -/
def next (s : State) (a : Act) : Option State :=
  if s.panicked.isSome then none else act { s with said := none } a

end Xv6.Ptable
