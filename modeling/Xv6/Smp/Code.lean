import Xv6.Sys.Reach

/-!
# Page faults on several CPUs

`CoW_handler`, `deallocuvm` and `freevm` as programs that run at the same time, each on the page
table of another process. A call of `kalloc`, `kfree`, `get_refc` or `decr_refc` is one step, and so
is every access to a page table entry.
-/

open Xv6.Sys Xv6.Vm

namespace Xv6.Smp

/-- Where the caller of `deallocuvm` goes on. -/
inductive After
  | growproc (newsz : Nat)
  | freevm

/-- What comes next in the work on a page table. -/
inductive Job
  | idle
  /-- `CoW_handler` has read the entry: `get_refc(pa)`. -/
  | getRefc (va pa : Nat)
  /-- `mem = kalloc()` -/
  | kalloc (va pa : Nat)
  /-- `memmove(mem, P2V(pa), PGSIZE)` -/
  | memmove (va pa mem : Nat)
  /-- `*pte = V2P(mem) | PTE_P | PTE_W | PTE_U` -/
  | setPte (va pa mem : Nat)
  | decrRefc (pa : Nat)
  /-- `*pte |= PTE_W` -/
  | setWrite (va : Nat)
  /-- The loop of `deallocuvm` at `a`. -/
  | dealloc (oldsz a : Nat) (k : After)
  /-- `*pte = 0`, after the `kfree`. -/
  | clear (oldsz a : Nat) (k : After)
  /-- The second loop of `freevm`. -/
  | freeTabs (is : List Nat)
  | freeDir

structure Cpus where
  m : Machine
  job : Fin NPROC → Job

def Cpus.put (s : Cpus) (i : Fin NPROC) (ph : Phys) (x : Option Proc) (j : Job) : Cpus :=
  { m := { s.m.setProc i x with phys := ph }, job := Function.update s.job i j }

/-- Nobody is inside `CoW_handler`, `deallocuvm` or `freevm`. -/
def Quiet (s : Cpus) : Prop := ∀ i, s.job i = .idle

variable (ld : Linker)

/-- A `kfree` that does not panic. -/
def free (ph : Phys) (q : Nat) : Option Phys := (kfree ld q ph).toOption.map Prod.snd

/-- One round of the loop of `deallocuvm`, up to the `kfree`. -/
def deallocStep (s : Cpus) (i : Fin NPROC) (p : Proc) (oldsz a : Nat) (k : After) : Option Cpus :=
  if a < oldsz then
    if (p.pgdir.tab (pdx a)).isNone then
      some (s.put i s.m.phys (some p) (.dealloc oldsz (pgaddr (pdx a + 1)) k))
    else if (p.pgdir.get a).present then
      if (p.pgdir.get a).ppn = 0 then none
      else (free ld s.m.phys (p.pgdir.get a).ppn).map fun ph =>
        s.put i ph (some p) (.clear oldsz a k)
    else some (s.put i s.m.phys (some p) (.dealloc oldsz (u32 (a + PGSIZE)) k))
  else
    match k with
    | .growproc newsz =>
      some (s.put i s.m.phys (some { p with sz := if newsz = 0 then p.sz else newsz }) .idle)
    | .freevm => some (s.put i s.m.phys (some p) (.freeTabs (List.range NPDENTRIES)))

/-- One round of the second loop of `freevm`. -/
def freeTabsStep (s : Cpus) (i : Fin NPROC) (p : Proc) : List Nat → Option Cpus
  | [] => some (s.put i s.m.phys (some p) .freeDir)
  | t :: is =>
    match p.pgdir.tab t with
    | some tab => (free ld s.m.phys tab.page).map fun ph => s.put i ph (some p) (.freeTabs is)
    | none => some (s.put i s.m.phys (some p) (.freeTabs is))

/-- The next step of the work on the page table of the process `p` in slot `i`. -/
def stepJob (s : Cpus) (i : Fin NPROC) (p : Proc) : Job → Option Cpus
  | .idle => none
  | .getRefc va pa =>
    if 1 < s.m.phys.refc_cnt pa then some (s.put i s.m.phys (some p) (.kalloc va pa))
    else some (s.put i s.m.phys (some p) (.setWrite va))
  | .kalloc va pa =>
    match Vm.kalloc s.m.phys with
    | .ok (some mem, ph) => some (s.put i ph (some p) (.memmove va pa mem))
    | _ => none
  | .memmove va pa mem =>
    some (s.put i (s.m.phys.setMem mem (s.m.phys.mem pa)) (some p) (.setPte va pa mem))
  | .setPte va pa mem =>
    some (s.put i s.m.phys (some { p with pgdir := p.pgdir.set va (cowPte mem) }) (.decrRefc pa))
  | .decrRefc pa =>
    some (s.put i (s.m.phys.setRefc pa (s.m.phys.refc_cnt pa - 1)) (some p) .idle)
  | .setWrite va =>
    some (s.put i s.m.phys (some { p with pgdir := p.pgdir.set va (p.pgdir.get va).writeOk }) .idle)
  | .dealloc oldsz a k => deallocStep ld s i p oldsz a k
  | .clear oldsz a k =>
    some (s.put i s.m.phys (some { p with pgdir := p.pgdir.set a .zero })
      (.dealloc oldsz (u32 (a + PGSIZE)) k))
  | .freeTabs is => freeTabsStep ld s i p is
  | .freeDir => (free ld s.m.phys p.pgdir.page).map fun ph => s.put i ph none .idle

inductive Lbl
  /-- The process faults at `va` and is in `CoW_handler`. -/
  | fault (i : Fin NPROC) (va : Nat)
  /-- The process calls `growproc` to shrink to `newsz`. -/
  | shrink (i : Fin NPROC) (newsz : Nat)
  /-- The parent of the process finds it in `wait` and frees its kernel stack. -/
  | wait (i : Fin NPROC)
  | step (i : Fin NPROC)

/-- Work on the page table of `i` begins. -/
def start (s : Cpus) (i : Fin NPROC) (f : Proc → Option Cpus) : Option Cpus :=
  match s.job i, s.m.proc i with
  | .idle, some p => f p
  | _, _ => none

def next (s : Cpus) : Lbl → Option Cpus
  | .fault i va => start s i fun p =>
    if p.zombie then none
    else if (p.pgdir.tab (pdx va)).isNone ∨ (p.pgdir.get va).present = false then
      if i = initproc then none else some (s.put i s.m.phys (some { p with zombie := true }) .idle)
    else some (s.put i s.m.phys (some p) (.getRefc va (p.pgdir.get va).ppn))
  | .shrink i newsz => start s i fun p =>
    if p.zombie = false ∧ newsz < p.sz then
      some (s.put i s.m.phys (some p) (.dealloc p.sz (pgroundup newsz) (.growproc newsz)))
    else none
  | .wait i => start s i fun p =>
    if p.zombie then
      (free ld s.m.phys p.kstack).map fun ph => s.put i ph (some p) (.dealloc KERNBASE 0 .freevm)
    else none
  | .step i => (s.m.proc i).bind fun p => stepJob ld s i p (s.job i)

/-- The address of a fault is below `KERNBASE`. -/
def UserFault (_ : Cpus) : Lbl → Prop
  | .fault _ va => va < KERNBASE
  | _ => True

/-- The `decr_refc` of `CoW_handler` leaves a reference. -/
def DecrOk (s : Cpus) : Lbl → Prop
  | .step i =>
    match s.job i with
    | .decrRefc pa => 1 < s.m.phys.refc_cnt pa
    | _ => True
  | _ => True

instance (s : Cpus) (l : Lbl) : Decidable (DecrOk s l) := by
  unfold DecrOk
  split
  · split <;> infer_instance
  · infer_instance

end Xv6.Smp
