import Xv6.Lib.Run

/-!
# Open files

`file.c`, `pipealloc` and `pipeclose` of `pipe.c`, `fdalloc`, `sys_dup`, `sys_close`, `sys_open` and `sys_pipe` of
`sysfile.c`, and what `fork`, `exit` and `wait` of `proc.c` do to open files, for any number of processes. What is
done under `ftable.lock` or under the lock of a pipe is one step. `ofile` of a process, and a file or a pipe that
only one process knows, are not seen by others.
-/

namespace Xv6.File

def NFILE : Nat := 100
def NOFILE : Nat := 16
def O_WRONLY : Nat := 0x001
def O_RDWR : Nat := 0x002

inductive FdType
  | FD_NONE
  | FD_PIPE
  | FD_INODE
  deriving DecidableEq

/-- `pipe` and `ip` are addresses. -/
structure File where
  type : FdType
  ref : Nat
  readable : Bool
  writable : Bool
  pipe : Nat
  ip : Nat
  off : Nat
  deriving DecidableEq

/-- The part of `struct pipe` that says who has it open. -/
structure Pipe where
  readopen : Bool
  writeopen : Bool
  deriving DecidableEq

/-- `ACTIVE` is `SLEEPING`, `RUNNABLE` or `RUNNING`. -/
inductive ProcState
  | UNUSED
  | EMBRYO
  | ACTIVE
  | ZOMBIE
  deriving DecidableEq

/-- What comes after a `fileclose`: the call returns, another file is closed, or `exit` clears the descriptor. -/
inductive After
  | done
  | close (f : Fin NFILE)
  | exit (fd : Fin NOFILE)
  deriving DecidableEq

/-- Where a process is. -/
inductive Pc (n : Nat)
  | user
  /-- In `sys_open`: before `filealloc`, before `fdalloc`, and before `f->type = FD_INODE`. -/
  | openAlloc (ip omode : Nat)
  | openFd (f : Fin NFILE) (ip omode : Nat)
  | openSet (f : Fin NFILE) (fd : Fin NOFILE) (ip omode : Nat)
  /-- Before the `filedup` of `sys_dup`. -/
  | dup (f : Fin NFILE) (fd : Fin NOFILE)
  /-- Before `fileclose`, before its `pipeclose`, and before the `kfree` of that. -/
  | close (f : Fin NFILE) (k : After)
  | pipeclose (p : Nat) (writable : Bool) (k : After)
  | kfree (p : Nat) (k : After)
  /-- In `pipealloc`: before the first `filealloc`, before the second, and before `kalloc`. -/
  | pipeAlloc0
  | pipeAlloc1 (f0 : Fin NFILE)
  | pipeKalloc (f0 f1 : Fin NFILE)
  /-- In `sys_pipe`: before the first `fdalloc`, and before the second. -/
  | pipeFd0 (rf wf : Fin NFILE)
  | pipeFd1 (fd0 : Fin NOFILE) (rf wf : Fin NFILE)
  /-- In `fork`: before `copyuvm`, and in the loop over the descriptors. -/
  | forkCopy (np : Fin n)
  | forkDup (np : Fin n) (i : Nat)
  /-- In `exit`: in the loop over the descriptors, and before `curproc->ofile[fd] = 0`. -/
  | exitFd (fd : Nat)
  | exitClear (fd : Fin NOFILE)
  deriving DecidableEq

/-- `live` says which pages `kalloc` has given to a pipe, `kallocs` and `kfrees` count the calls. -/
structure State (n : Nat) where
  file : Fin NFILE → File
  initproc : Fin n
  state : Fin n → ProcState
  ofile : Fin n → Fin NOFILE → Option (Fin NFILE)
  pc : Fin n → Pc n
  pipe : Nat → Pipe
  live : Nat → Bool
  kallocs : Nat → Nat
  kfrees : Nat → Nat
  panicked : Bool

variable {n : Nat}

/-- After `userinit`. -/
def init (p : Fin n) : State n where
  file := fun _ => ⟨.FD_NONE, 0, false, false, 0, 0, 0⟩
  initproc := p
  state := fun q => if q = p then .ACTIVE else .UNUSED
  ofile := fun _ _ => none
  pc := fun _ => .user
  pipe := fun _ => ⟨false, false⟩
  live := fun _ => false
  kallocs := fun _ => 0
  kfrees := fun _ => 0
  panicked := false

def State.setFile (s : State n) (f : Fin NFILE) (x : File) : State n :=
  { s with file := Function.update s.file f x }

def State.setRef (s : State n) (f : Fin NFILE) (r : Nat) : State n :=
  s.setFile f { s.file f with ref := r }

def State.goto (s : State n) (p : Fin n) (pc : Pc n) : State n :=
  { s with pc := Function.update s.pc p pc }

def State.setState (s : State n) (p : Fin n) (st : ProcState) : State n :=
  { s with state := Function.update s.state p st }

def State.setOfile (s : State n) (p : Fin n) (fd : Fin NOFILE) (f : Option (Fin NFILE)) : State n :=
  { s with ofile := Function.update s.ofile p (Function.update (s.ofile p) fd f) }

/-- The file that `filealloc` finds. -/
def State.freeFile (s : State n) : Option (Fin NFILE) :=
  (List.finRange NFILE).find? fun f => (s.file f).ref = 0

/-- The descriptor that `fdalloc` finds. -/
def State.freeFd (s : State n) (p : Fin n) : Option (Fin NOFILE) :=
  (List.finRange NOFILE).find? fun fd => s.ofile p fd = none

def filealloc (s : State n) : Option (Fin NFILE × State n) :=
  s.freeFile.map fun f => (f, s.setRef f 1)

def fdalloc (s : State n) (p : Fin n) (f : Fin NFILE) : Option (Fin NOFILE × State n) :=
  (s.freeFd p).map fun fd => (fd, s.setOfile p fd (some f))

def filedup (s : State n) (f : Fin NFILE) : State n :=
  if (s.file f).ref < 1 then { s with panicked := true } else s.setRef f ((s.file f).ref + 1)

def After.pc : After → Pc n
  | .done => .user
  | .close f => .close f .done
  | .exit fd => .exitClear fd

/-- The part of `fileclose` under `ftable.lock`, and what process `p` has to do then. `iput` is not modelled. -/
def fileclose (s : State n) (p : Fin n) (f : Fin NFILE) (k : After) : State n :=
  if (s.file f).ref < 1 then { s with panicked := true }
  else if (s.file f).ref - 1 > 0 then (s.setRef f ((s.file f).ref - 1)).goto p k.pc
  else
    let ff := s.file f
    let s := s.setFile f { ff with ref := 0, type := .FD_NONE }
    match ff.type with
    | .FD_PIPE => s.goto p (.pipeclose ff.pipe ff.writable k)
    | _ => s.goto p k.pc

/-- `pipeclose` under the lock of the pipe. -/
def pipeclose (s : State n) (p : Fin n) (pg : Nat) (writable : Bool) (k : After) : State n :=
  let x := if writable then { s.pipe pg with writeopen := false } else { s.pipe pg with readopen := false }
  let s := { s with pipe := Function.update s.pipe pg x }
  if x.readopen = false ∧ x.writeopen = false then s.goto p (.kfree pg k) else s.goto p k.pc

/-- `kfree` fills the page with ones. -/
def kfree (s : State n) (pg : Nat) : State n :=
  { s with
    pipe := Function.update s.pipe pg ⟨true, true⟩
    live := Function.update s.live pg false
    kfrees := Function.update s.kfrees pg (s.kfrees pg + 1) }

/-- `pipealloc` after `kalloc` has found the page. -/
def pipeinit (s : State n) (pg : Nat) (f0 f1 : Fin NFILE) : State n :=
  let s := { s with
    pipe := Function.update s.pipe pg ⟨true, true⟩
    live := Function.update s.live pg true
    kallocs := Function.update s.kallocs pg (s.kallocs pg + 1) }
  let s := s.setFile f0 { s.file f0 with type := .FD_PIPE, readable := true, writable := false, pipe := pg }
  s.setFile f1 { s.file f1 with type := .FD_PIPE, readable := false, writable := true, pipe := pg }

/-- The next step of process `p`. `page` is what `kalloc` returns, and says if `fork` finds memory. -/
def step (s : State n) (p : Fin n) (page : Option Nat) : Option (State n) :=
  match s.pc p with
  | .user => none
  | .openAlloc ip omode =>
    match filealloc s with
    | some (f, s) => some (s.goto p (.openFd f ip omode))
    | none => some (s.goto p .user)
  | .openFd f ip omode =>
    match fdalloc s p f with
    | some (fd, s) => some (s.goto p (.openSet f fd ip omode))
    | none => some (s.goto p (.close f .done))
  | .openSet f _ ip omode =>
    some ((s.setFile f { s.file f with
      type := .FD_INODE, ip := ip, off := 0, readable := omode &&& O_WRONLY = 0,
      writable := omode &&& O_WRONLY ≠ 0 ∨ omode &&& O_RDWR ≠ 0 }).goto p .user)
  | .dup f _ => some ((filedup s f).goto p .user)
  | .close f k => some (fileclose s p f k)
  | .pipeclose pg writable k => some (pipeclose s p pg writable k)
  | .kfree pg k => some ((kfree s pg).goto p k.pc)
  | .pipeAlloc0 =>
    match filealloc s with
    | some (f0, s) => some (s.goto p (.pipeAlloc1 f0))
    | none => some (s.goto p .user)
  | .pipeAlloc1 f0 =>
    match filealloc s with
    | some (f1, s) => some (s.goto p (.pipeKalloc f0 f1))
    | none => some (s.goto p (.close f0 .done))
  | .pipeKalloc f0 f1 =>
    match page with
    | some pg => if s.live pg then none else some ((pipeinit s pg f0 f1).goto p (.pipeFd0 f0 f1))
    | none => some (s.goto p (.close f0 (.close f1)))
  | .pipeFd0 rf wf =>
    match fdalloc s p rf with
    | some (fd0, s) => some (s.goto p (.pipeFd1 fd0 rf wf))
    | none => some (s.goto p (.close rf (.close wf)))
  | .pipeFd1 fd0 rf wf =>
    match fdalloc s p wf with
    | some (_, s) => some (s.goto p .user)
    | none => some ((s.setOfile p fd0 none).goto p (.close rf (.close wf)))
  | .forkCopy np =>
    if page.isSome then some (s.goto p (.forkDup np 0))
    else some ((s.setState np .UNUSED).goto p .user)
  | .forkDup np i =>
    if h : i < NOFILE then
      match s.ofile p ⟨i, h⟩ with
      | some f => some (((filedup s f).setOfile np ⟨i, h⟩ (some f)).goto p (.forkDup np (i + 1)))
      | none => some (s.goto p (.forkDup np (i + 1)))
    else some ((s.setState np .ACTIVE).goto p .user)
  | .exitFd fd =>
    if h : fd < NOFILE then
      match s.ofile p ⟨fd, h⟩ with
      | some f => some (s.goto p (.close f (.exit ⟨fd, h⟩)))
      | none => some (s.goto p (.exitFd (fd + 1)))
    else some ((s.setState p .ZOMBIE).goto p .user)
  | .exitClear fd => some ((s.setOfile p fd none).goto p (.exitFd (fd + 1)))

/-- The file that `argfd` finds. -/
def argfd (s : State n) (p : Fin n) (fd : Int) : Option (Fin NOFILE × Fin NFILE) :=
  if h : 0 ≤ fd ∧ fd < NOFILE then
    (s.ofile p ⟨fd.toNat, by omega⟩).map fun f => (⟨fd.toNat, by omega⟩, f)
  else none

inductive Call (n : Nat)
  /-- `ip` is what `namei` or `create` finds. -/
  | open (ip : Option Nat) (omode : Nat)
  | close (fd : Int)
  | dup (fd : Int)
  | pipe
  /-- `np` is the slot that `allocproc` finds. -/
  | fork (np : Option (Fin n))
  | exit
  /-- `wait` finds the zombie `z`. -/
  | wait (z : Fin n)
  deriving DecidableEq

/-- The start of a call of process `p`. Where a call fails at once nothing changes. `exit` of `initproc` panics. -/
def call (s : State n) (p : Fin n) : Call n → Option (State n)
  | .open ip omode =>
    match ip with
    | some ip => some (s.goto p (.openAlloc ip omode))
    | none => some s
  | .close fd =>
    match argfd s p fd with
    | some (fd, f) => some ((s.setOfile p fd none).goto p (.close f .done))
    | none => some s
  | .dup fd =>
    match argfd s p fd with
    | some (_, f) =>
      match fdalloc s p f with
      | some (fd, s) => some (s.goto p (.dup f fd))
      | none => some s
    | none => some s
  | .pipe => some (s.goto p .pipeAlloc0)
  | .fork np =>
    match np with
    | some np => if s.state np = .UNUSED then some ((s.setState np .EMBRYO).goto p (.forkCopy np)) else none
    | none => some s
  | .exit => if p = s.initproc then none else some (s.goto p (.exitFd 0))
  | .wait z => if s.state z = .ZOMBIE then some (s.setState z .UNUSED) else none

inductive Act (n : Nat)
  | step (p : Fin n) (page : Option Nat)
  | call (p : Fin n) (c : Call n)
  deriving DecidableEq

def next (s : State n) : Act n → Option (State n)
  | .step p page => if s.panicked then none else step s p page
  | .call p c => if s.panicked = false ∧ s.state p = .ACTIVE ∧ s.pc p = .user then call s p c else none

end Xv6.File
