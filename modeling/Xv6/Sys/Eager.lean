import Xv6.Sys.Reach

/-!
# A kernel without sharing

The reference for copy-on-write: `fork` gives the child copies of all pages, and every page belongs
to one process. There are no page tables, counts or faults.
-/

open Xv6.Cmd Xv6.Vm

namespace Xv6.Sys

/-! ## The requests -/

inductive Req
  | fork (i : Fin NPROC)
  | load (i : Fin NPROC) (va : Nat)
  | store (i : Fin NPROC) (va : Nat) (b : UInt8)
  | growproc (i : Fin NPROC) (n : Int)
  | exit (i : Fin NPROC)
  | wait (i j : Fin NPROC)

/-- A call by the process in slot `i`, with its result. -/
def Machine.call {α : Type} (m : Machine) (i : Fin NPROC) (f : Proc → M α) : Option (α × Machine) :=
  match m.proc i with
  | some p => if p.zombie then none else (f p m).toOption
  | none => none

/-- A call that has to return 0. -/
def succeed (r : Option (Bool × Machine)) : Option (Machine × Option UInt8) :=
  r.bind fun x => if x.1 then some (x.2, none) else none

variable (ld : Linker)

/-- One step of the kernel with copy-on-write, as long as memory lasts. A load gives a value. -/
def cow (m : Machine) : Req → Option (Machine × Option UInt8)
  | .fork i => succeed (m.call i (fork ld i))
  | .load i va => (m.proc i).bind fun p =>
    if p.zombie = false ∧ p.Maps va then some (m, some (Phys.byte m.phys p.pgdir va)) else none
  | .store i va b => (next ld m (.store i va b)).map (·, none)
  | .growproc i n => succeed (m.call i fun p => growproc ld i p n)
  | .exit i => (next ld m (.exit i)).map (·, none)
  | .wait i j => (next ld m (.wait i j)).map (·, none)

/-! ## The reference -/

/-- A process and its own pages, each with its `PTE_U`. -/
structure EProc where
  sz : Nat
  page : Nat → Option (Bool × Page)
  zombie : Bool

abbrev Eager := Fin NPROC → Option EProc

def EProc.Maps (p : EProc) (va : Nat) : Prop :=
  va < p.sz ∧ ((p.page (va / PGSIZE)).map Prod.fst) = some true

instance (p : EProc) (va : Nat) : Decidable (p.Maps va) := inferInstanceAs (Decidable (_ ∧ _))

def EProc.byte (p : EProc) (va : Nat) : UInt8 :=
  match p.page (va / PGSIZE) with
  | some (_, c) => c (va % PGSIZE)
  | none => 0

def EProc.write (p : EProc) (va : Nat) (b : UInt8) : EProc :=
  let cell := (p.page (va / PGSIZE)).map fun x => (x.1, Function.update x.2 (va % PGSIZE) b)
  { p with page := Function.update p.page (va / PGSIZE) cell }

/-- The page `v` of the memory from `a` up to `b`, with `a` rounded up. -/
def Between (a b v : Nat) : Prop := pgroundup a ≤ v * PGSIZE ∧ v * PGSIZE < b

instance (a b v : Nat) : Decidable (Between a b v) := inferInstanceAs (Decidable (_ ∧ _))

/-- New memory is zero. -/
def EProc.grow (p : EProc) (newsz : Nat) : EProc :=
  if newsz < p.sz then p
  else
    { p with
      sz := newsz
      page := fun v => if Between p.sz newsz v then some (true, fun _ => 0) else p.page v }

def EProc.shrink (p : EProc) (newsz : Nat) : EProc :=
  if p.sz ≤ newsz then p
  else
    { p with
      sz := newsz
      page := fun v => if Between newsz p.sz v then none else p.page v }

def EProc.resize (p : EProc) (n : Int) : EProc :=
  if 0 < n then p.grow (addInt p.sz n) else if n < 0 then p.shrink (addInt p.sz n) else p

def Eager.unused (r : Eager) : Option (Fin NPROC) :=
  (List.finRange NPROC).find? fun i => (r i).isNone

/-- The process in slot `i`, if it has not exited. -/
def Eager.live (r : Eager) (i : Fin NPROC) : Option EProc := (r i).filter fun p => !p.zombie

def eager (r : Eager) : Req → Option (Eager × Option UInt8)
  | .fork i => (r.live i).bind fun p => r.unused.map fun j => (Function.update r j (some p), none)
  | .load i va => (r.live i).bind fun p => if p.Maps va then some (r, some (p.byte va)) else none
  | .store i va b => (r.live i).bind fun p =>
    if p.Maps va then some (Function.update r i (some (p.write va b)), none) else none
  | .growproc i n => (r.live i).map fun p => (Function.update r i (some (p.resize n)), none)
  | .exit i => (r.live i).map fun p => (Function.update r i (some { p with zombie := true }), none)
  | .wait i j => (r.live i).bind fun _ => (r j).bind fun q =>
    if q.zombie then some (Function.update r j none, none) else none

end Xv6.Sys
