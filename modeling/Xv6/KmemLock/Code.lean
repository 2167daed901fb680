import Xv6.Lib.Run

/-!
# The allocator's lock, access by access

`kalloc.c` after `kinit2`, on any number of CPUs. Each call is the list of its accesses to
`kmem`, and a step is one access of one CPU. A page is its number, and 0 is the null page.
-/

open Xv6.Run

namespace Xv6.KmemLock

/-- One access to `kmem`, or one branch on what the CPU has read. -/
inductive Op
  /-- `if(kmem.use_lock)` at the start of a function. -/
  | lockTest
  /-- `acquire(&kmem.lock)` -/
  | acquire
  /-- `if(kmem.use_lock)` at the end of a function. -/
  | unlockTest
  /-- `release(&kmem.lock)` -/
  | release
  /-- `islock = kmem.use_lock` -/
  | saveFlag
  /-- `kmem.use_lock = 0` -/
  | clearFlag
  /-- `kmem.use_lock = islock` -/
  | restoreFlag
  /-- `ret = kmem.refc_cnt[pg]` -/
  | loadRefc (pg : Nat)
  /-- `kmem.refc_cnt[pg] += d` -/
  | addRefc (pg : Nat) (d : Int)
  /-- `kmem.refc_cnt[r] = 1` -/
  | firstRefc
  /-- `r = kmem.freelist` -/
  | loadHead
  /-- `kmem.freelist = r->next` -/
  | popHead
  /-- `r = pg; r->next = kmem.freelist` -/
  | linkPage (pg : Nat)
  /-- `kmem.freelist = r` -/
  | pushPage
  /-- `kmem.freecnt += d` -/
  | addCnt (d : Int)
  /-- `ret = kmem.freecnt` -/
  | loadCnt
  /-- `if(ret > 0) body` -/
  | whenPos (body : List Op)
  /-- `if(ret == 0) body` -/
  | whenZero (body : List Op)
  /-- `if(r) body` -/
  | whenPage (body : List Op)

/-! ## The functions -/

def get_refc (pg : Nat) : List Op := [.lockTest, .loadRefc pg, .unlockTest]

def incr_refc (pg : Nat) : List Op := [.lockTest, .addRefc pg 1, .unlockTest]

def decr_refc (pg : Nat) : List Op := [.lockTest, .addRefc pg (-1), .unlockTest]

def countfp : List Op := [.lockTest, .loadCnt, .unlockTest]

def kalloc : List Op :=
  [.lockTest, .loadHead, .whenPage [.popHead, .firstRefc], .addCnt (-1), .unlockTest]

/-- The argument check and the `memset` of the page touch nothing of `kmem`. -/
def kfree (pg : Nat) : List Op :=
  [.lockTest, .saveFlag, .clearFlag] ++ get_refc pg ++ [.whenPos (decr_refc pg)] ++ get_refc pg ++
    [.whenZero [.linkPage pg, .pushPage, .addCnt 1], .restoreFlag, .unlockTest]

inductive Fn
  | kalloc
  | kfree (pg : Nat)
  | incr_refc (pg : Nat)
  | decr_refc (pg : Nat)
  | get_refc (pg : Nat)
  | countfp
  deriving DecidableEq

def Fn.code : Fn → List Op
  | .kalloc => KmemLock.kalloc
  | .kfree pg => KmemLock.kfree pg
  | .incr_refc pg => KmemLock.incr_refc pg
  | .decr_refc pg => KmemLock.decr_refc pg
  | .get_refc pg => KmemLock.get_refc pg
  | .countfp => KmemLock.countfp

def Fn.isKfree : Fn → Bool
  | .kfree _ => true
  | _ => false

/-! ## The machine -/

/-- Where a CPU is around `kfree`'s two writes of `use_lock`. -/
inductive Phase
  | out
  | saved
  | cleared
  deriving DecidableEq

/-- `code` is what is left of the call. `depth` counts the functions entered and not yet
left: past the entry test (and its `acquire`) and before the exit test. -/
structure Cpu where
  call : Fn
  code : List Op
  depth : Nat
  phase : Phase
  islock : Bool
  ret : Int
  r : Nat

structure Machine (ι : Type) where
  use_lock : Bool
  lock : Option ι
  freelist : Nat
  link : Nat → Nat
  refc_cnt : Nat → Int
  freecnt : UInt32
  cpu : ι → Cpu
  panicked : Bool

variable {ι : Type} [DecidableEq ι]

def Machine.setCpu (s : Machine ι) (i : ι) (c : Cpu) : Machine ι :=
  { s with cpu := Function.update s.cpu i c }

/-- One access of CPU `i`. `none` when the CPU spins in `acquire`. -/
def execOp (s : Machine ι) (i : ι) (op : Op) (rest : List Op) : Option (Machine ι) :=
  let c := s.cpu i
  match op with
  | .lockTest =>
    if s.use_lock then some (s.setCpu i { c with code := .acquire :: rest })
    else some (s.setCpu i { c with code := rest, depth := c.depth + 1 })
  | .acquire =>
    match s.lock with
    | none =>
      some ({ s with lock := some i }.setCpu i { c with code := rest, depth := c.depth + 1 })
    | some j => if j = i then some { s with panicked := true } else none
  | .unlockTest =>
    if s.use_lock then some (s.setCpu i { c with code := .release :: rest, depth := c.depth - 1 })
    else some (s.setCpu i { c with code := rest, depth := c.depth - 1 })
  | .release =>
    if s.lock = some i then some ({ s with lock := none }.setCpu i { c with code := rest })
    else some { s with panicked := true }
  | .saveFlag =>
    some (s.setCpu i { c with code := rest, islock := s.use_lock, phase := .saved })
  | .clearFlag =>
    some ({ s with use_lock := false }.setCpu i { c with code := rest, phase := .cleared })
  | .restoreFlag =>
    some ({ s with use_lock := c.islock }.setCpu i { c with code := rest, phase := .out })
  | .loadRefc pg => some (s.setCpu i { c with code := rest, ret := s.refc_cnt pg })
  | .addRefc pg d =>
    some ({ s with refc_cnt := Function.update s.refc_cnt pg (s.refc_cnt pg + d) }.setCpu i
      { c with code := rest })
  | .firstRefc =>
    some ({ s with refc_cnt := Function.update s.refc_cnt c.r 1 }.setCpu i { c with code := rest })
  | .loadHead => some (s.setCpu i { c with code := rest, r := s.freelist })
  | .popHead => some ({ s with freelist := s.link c.r }.setCpu i { c with code := rest })
  | .linkPage pg =>
    some ({ s with link := Function.update s.link pg s.freelist }.setCpu i
      { c with code := rest, r := pg })
  | .pushPage => some ({ s with freelist := c.r }.setCpu i { c with code := rest })
  | .addCnt d =>
    some ({ s with freecnt := UInt32.ofInt (s.freecnt.toNat + d) }.setCpu i { c with code := rest })
  | .loadCnt => some (s.setCpu i { c with code := rest, ret := s.freecnt.toNat })
  | .whenPos body =>
    some (s.setCpu i { c with code := if 0 < c.ret then body ++ rest else rest })
  | .whenZero body =>
    some (s.setCpu i { c with code := if c.ret = 0 then body ++ rest else rest })
  | .whenPage body =>
    some (s.setCpu i { c with code := if c.r ≠ 0 then body ++ rest else rest })

inductive Act (ι : Type)
  | call (i : ι) (f : Fn)
  | exec (i : ι)

/-- An idle CPU starts a call, or a busy one makes its next access. -/
def next (s : Machine ι) (a : Act ι) : Option (Machine ι) :=
  if s.panicked then none
  else match a with
    | .call i f =>
      match (s.cpu i).code with
      | [] => some (s.setCpu i { s.cpu i with call := f, code := f.code })
      | _ :: _ => none
    | .exec i =>
      match (s.cpu i).code with
      | [] => none
      | op :: rest => execOp s i op rest

/-- What `kinit2` leaves: the flag is set, the lock is free and no CPU is in a call. -/
def AfterKinit2 (s : Machine ι) : Prop :=
  s.use_lock = true ∧ s.lock = none ∧ s.panicked = false ∧
  ∀ i, (s.cpu i).code = [] ∧ (s.cpu i).depth = 0 ∧ (s.cpu i).phase = .out

/-! ## The discipline -/

/-- In the body of `kfree`: past its entry test and before its exit test. -/
def InKfree (c : Cpu) : Prop := c.call.isKfree = true ∧ 0 < c.depth

/-- At most one CPU is in a body, only the holder gets to `release`, and the flag is down only
while some CPU is in `kfree`. -/
def Discipline (s : Machine ι) : Prop :=
  (∀ i j, 0 < (s.cpu i).depth → 0 < (s.cpu j).depth → i = j) ∧
  (∀ i rest, (s.cpu i).code = .release :: rest → s.lock = some i) ∧
  ((∀ i, ¬ InKfree (s.cpu i)) → s.use_lock = true)

/-- No CPU makes an entry test while another one is between `kmem.use_lock = 0` and
`kmem.use_lock = islock`. -/
def EntryOutsideWindow (s : Machine ι) : Act ι → Prop
  | .call _ _ => True
  | .exec i =>
    ∀ rest, (s.cpu i).depth = 0 → (s.cpu i).code = .lockTest :: rest →
      ∀ j, j ≠ i → (s.cpu j).phase ≠ .cleared

end Xv6.KmemLock
