import Xv6.Lib.Cmd
import Xv6.Mmu

/-!
# The allocator and the page tables

`kalloc.c` and `vm.c`, one call at a time. A physical page is its number. The contents of a page
directory and of its page tables are in `PgDir`, and those of every other page in `mem`.
-/

open Xv6.Cmd

namespace Xv6.Vm

/-- Why the kernel does not go on. -/
inductive Stop
  | panic (msg : String)
  /-- A loop that does not come to its end. -/
  | hang
  /-- A page fault in the kernel, at an address that has no page. -/
  | fault
  /-- Kernel memory that is not part of the model is overwritten. -/
  | wild
  deriving DecidableEq

abbrev Page := Nat → UInt8

/-- The symbols of `kernel.ld`. -/
structure Linker where
  data : Nat
  endAddr : Nat
  data_aligned : data % PGSIZE = 0
  text_lt : KERNLINK < data
  data_lt : data < KERNBASE + PHYSTOP
  data_le : data ≤ endAddr

/-- `kmem` and the physical memory. No count reaches `2 ^ 31`, so they are integers. -/
structure Phys where
  freelist : List Nat
  freecnt : UInt32
  refc_cnt : Nat → Int
  mem : Nat → Page

abbrev K := Cmd Stop Phys

variable (ld : Linker)

/-! ## `kalloc.c` -/

def Phys.setRefc (s : Phys) (p : Nat) (n : Int) : Phys :=
  { s with refc_cnt := Function.update s.refc_cnt p n }

def Phys.setMem (s : Phys) (p : Nat) (b : Page) : Phys :=
  { s with mem := Function.update s.mem p b }

def get_refc (p : Nat) : K Int := fun s => .ok (s.refc_cnt p, s)

def incr_refc (p : Nat) : K Unit := fun s => .ok ((), s.setRefc p (s.refc_cnt p + 1))

def decr_refc (p : Nat) : K Unit := fun s => .ok ((), s.setRefc p (s.refc_cnt p - 1))

def memset (p : Nat) (c : UInt8) : K Unit := fun s => .ok ((), s.setMem p fun _ => c)

/-- `kmem.freecnt` goes down even when there is no page. -/
def kalloc : K (Option Nat) := fun s =>
  match s.freelist with
  | p :: rest =>
    .ok (some p, { s.setRefc p 1 with freelist := rest, freecnt := s.freecnt - 1 })
  | [] => .ok (none, { s with freecnt := s.freecnt - 1 })

/-- The end of `kfree`: a page that nothing refers to is filled and put on the free list. -/
def Phys.push (s : Phys) (p : Nat) : Phys :=
  { s.setMem p (fun _ => 1) with freelist := p :: s.freelist, freecnt := s.freecnt + 1 }

def kfree (p : Nat) : K Unit := fun s =>
  if P2V (p * PGSIZE) < ld.endAddr ∨ PHYSTOP ≤ p * PGSIZE then .error (.panic "kfree")
  else
    let s := if 0 < s.refc_cnt p then s.setRefc p (s.refc_cnt p - 1) else s
    .ok ((), if s.refc_cnt p = 0 then s.push p else s)

/-- `freerange` over the pages `ps`. -/
def freerange : List Nat → K Unit
  | [] => pure ()
  | p :: ps => do
    (fun s => .ok ((), s.setRefc p 0) : K Unit)
    kfree ld p
    freerange ps

/-! ## Page tables -/

/-- One entry of a page table: `PTE_ADDR` as a page number, `PTE_P`, `PTE_W` and `PTE_U`. -/
structure Pte where
  ppn : Nat
  present : Bool
  writable : Bool
  user : Bool
  deriving DecidableEq

def Pte.zero : Pte := { ppn := 0, present := false, writable := false, user := false }

structure PgTab where
  page : Nat
  entry : Nat → Pte

/-- A page directory. Its entries have all permissions, so only their tables are kept. -/
structure PgDir where
  page : Nat
  tab : Nat → Option PgTab

/-- The entry for `va`, or an empty one when there is no table for it. -/
def PgDir.get (d : PgDir) (va : Nat) : Pte :=
  match d.tab (pdx va) with
  | some t => t.entry (ptx va)
  | none => .zero

/-- `*pte = e` for the entry of `va`. -/
def PgDir.set (d : PgDir) (va : Nat) (e : Pte) : PgDir :=
  match d.tab (pdx va) with
  | some t =>
    { d with
      tab := Function.update d.tab (pdx va)
        (some { t with entry := Function.update t.entry (ptx va) e }) }
  | none => d

def PgDir.addTab (d : PgDir) (i p : Nat) : PgDir :=
  { d with tab := Function.update d.tab i (some { page := p, entry := fun _ => .zero }) }

/-- `walkpgdir(pgdir, va, 1)`, which may add a table. `false` is the null pointer. With
`alloc = 0` it only asks whether there is a table. -/
def walkpgdir (d : PgDir) (va : Nat) : K (PgDir × Bool) :=
  match d.tab (pdx va) with
  | some _ => pure (d, true)
  | none => do
    match ← kalloc with
    | none => pure (d, false)
    | some p => do
      memset p 0
      pure (d.addTab (pdx va) p, true)

/-- The permissions that `mappages` is called with. -/
structure Perm where
  writable : Bool
  user : Bool

def Perm.pte (perm : Perm) (p : Nat) : Pte :=
  { ppn := p, present := true, writable := perm.writable, user := perm.user }

/-- The loop of `mappages`, which stops when `a` is `last`. -/
def mapUntil (perm : Perm) (last : Nat) : Nat → PgDir → Nat → Nat → K (PgDir × Bool)
  | 0, _, _, _ => throw .hang
  | n + 1, d, a, pa => do
    let (d, ok) ← walkpgdir d a
    if ok = false then pure (d, false)
    else if (d.get a).present then throw (.panic "remap")
    else
      let d := d.set a (perm.pte (pa / PGSIZE))
      if a = last then pure (d, true)
      else mapUntil perm last n d (u32 (a + PGSIZE)) (u32 (pa + PGSIZE))

/-- The same loop, with `n` more pages after the one at `a`. -/
def mapLoop (perm : Perm) : Nat → PgDir → Nat → Nat → K (PgDir × Bool)
  | n, d, a, pa => do
    let (d, ok) ← walkpgdir d a
    if ok = false then pure (d, false)
    else if (d.get a).present then throw (.panic "remap")
    else
      let d := d.set a (perm.pte (pa / PGSIZE))
      match n with
      | 0 => pure (d, true)
      | n + 1 => mapLoop perm n d (u32 (a + PGSIZE)) (u32 (pa + PGSIZE))

/-- `mappages`, with a round for every page there is. `false` stands for -1. -/
def mappages (d : PgDir) (va size pa : Nat) (perm : Perm) : K (PgDir × Bool) :=
  let a := pgrounddown va
  let last := pgrounddown (u32 (va + size - 1))
  mapUntil perm last 0x100000 d a pa

/-! ## Freeing user memory -/

/-- The loop of `deallocuvm`. A missing table is skipped as a whole. -/
def deallocLoop (oldsz : Nat) : Nat → PgDir → Nat → K PgDir
  | 0, d, a => if a < oldsz then throw .hang else pure d
  | n + 1, d, a =>
    if a < oldsz then
      if (d.tab (pdx a)).isNone then deallocLoop oldsz n d (pgaddr (pdx a + 1))
      else if (d.get a).present then
        if (d.get a).ppn = 0 then throw (.panic "kfree")
        else do
          kfree ld (d.get a).ppn
          deallocLoop oldsz n (d.set a .zero) (u32 (a + PGSIZE))
      else deallocLoop oldsz n d (u32 (a + PGSIZE))
    else pure d

/-- `deallocuvm`, with one round for every page. -/
def deallocuvm (d : PgDir) (oldsz newsz : Nat) : K (PgDir × Nat) :=
  if oldsz ≤ newsz then pure (d, oldsz)
  else do
    let a := pgroundup newsz
    let d ← deallocLoop ld oldsz ((oldsz - a) / PGSIZE + 1) d a
    pure (d, newsz)

/-- The second loop of `freevm`. -/
def freeTabs (d : PgDir) : List Nat → K Unit
  | [] => pure ()
  | i :: is =>
    match d.tab i with
    | some t => do
      kfree ld t.page
      freeTabs d is
    | none => freeTabs d is

def freevm (d : PgDir) : K Unit := do
  let (d, _) ← deallocuvm ld d KERNBASE 0
  freeTabs ld d (List.range NPDENTRIES)
  kfree ld d.page

/-! ## The kernel's part of a page table -/

structure Kmap where
  virt : Nat
  phys_start : Nat
  phys_end : Nat
  perm : Perm

def kmap : List Kmap :=
  [ { virt := KERNBASE, phys_start := 0, phys_end := EXTMEM, perm := ⟨true, false⟩ },
    { virt := KERNLINK, phys_start := V2P KERNLINK, phys_end := V2P ld.data,
      perm := ⟨false, false⟩ },
    { virt := ld.data, phys_start := V2P ld.data, phys_end := PHYSTOP, perm := ⟨true, false⟩ },
    { virt := DEVSPACE, phys_start := DEVSPACE, phys_end := 0, perm := ⟨true, false⟩ } ]

def kmapLoop : List Kmap → PgDir → K (PgDir × Bool)
  | [], d => pure (d, true)
  | k :: ks, d => do
    let size := u32 (k.phys_end + 0x100000000 - k.phys_start)
    let (d, ok) ← mappages d k.virt size k.phys_start k.perm
    if ok then kmapLoop ks d else pure (d, false)

def setupkvm : K (Option PgDir) := do
  match ← kalloc with
  | none => pure none
  | some p => do
    memset p 0
    if DEVSPACE < P2V PHYSTOP then throw (.panic "PHYSTOP too high")
    else do
      let (d, ok) ← kmapLoop (kmap ld) { page := p, tab := fun _ => none }
      if ok then pure (some d)
      else do
        freevm ld d
        pure none

/-! ## User memory -/

/-- `PTE_W|PTE_U` -/
def userPerm : Perm := ⟨true, true⟩

/-- The loop of `allocuvm`. The second component is what `allocuvm` returns. -/
def allocLoop (oldsz newsz : Nat) : Nat → PgDir → Nat → K (PgDir × Nat)
  | 0, d, a => if a < newsz then throw .hang else pure (d, newsz)
  | n + 1, d, a =>
    if a < newsz then do
      match ← kalloc with
      | none => do
        let (d, _) ← deallocuvm ld d newsz oldsz
        pure (d, 0)
      | some mem => do
        memset mem 0
        let (d, ok) ← mappages d a PGSIZE (mem * PGSIZE) userPerm
        if ok then allocLoop oldsz newsz n d (u32 (a + PGSIZE))
        else do
          let (d, _) ← deallocuvm ld d newsz oldsz
          kfree ld mem
          pure (d, 0)
    else pure (d, newsz)

def allocuvm (d : PgDir) (oldsz newsz : Nat) : K (PgDir × Nat) :=
  if KERNBASE ≤ newsz then pure (d, 0)
  else if newsz < oldsz then pure (d, oldsz)
  else
    let a := pgroundup oldsz
    allocLoop ld oldsz newsz ((newsz - a) / PGSIZE + 1) d a

/-- The first `sz` bytes of `init` go to a new page at address 0. -/
def inituvm (d : PgDir) (init : List UInt8) : K PgDir :=
  if PGSIZE ≤ init.length then throw (.panic "inituvm: more than a page")
  else do
    match ← kalloc with
    | none => throw .fault
    | some mem => do
      memset mem 0
      let (d, _) ← mappages d 0 PGSIZE (mem * PGSIZE) userPerm
      (fun s => .ok ((), s.setMem mem fun i => init.getD i 0) : K Unit)
      pure d

def clearpteu (d : PgDir) (uva : Nat) : K PgDir :=
  if (d.tab (pdx uva)).isNone then throw (.panic "clearpteu")
  else pure (d.set uva { d.get uva with user := false })

/-- The loop of `copyuvm`, from the parent's `pgdir` to the child's `d`. -/
def copyLoop (sz : Nat) : Nat → PgDir → PgDir → Nat → K (PgDir × PgDir × Bool)
  | 0, pgdir, d, i => if i < sz then throw .hang else pure (pgdir, d, true)
  | n + 1, pgdir, d, i =>
    if i < sz then
      if (pgdir.tab (pdx i)).isNone then throw (.panic "copyuvm: pte should exist")
      else if (pgdir.get i).present = false then throw (.panic "copyuvm: page not present")
      else do
        let pgdir := pgdir.set i { pgdir.get i with writable := false }
        let pte := pgdir.get i
        let (d, ok) ← mappages d i PGSIZE (pte.ppn * PGSIZE) ⟨pte.writable, pte.user⟩
        if ok then do
          incr_refc pte.ppn
          copyLoop sz n pgdir d (u32 (i + PGSIZE))
        else pure (pgdir, d, false)
    else pure (pgdir, d, true)

/-- `copyuvm`. It returns the parent's page table too, which has lost its `PTE_W`s. -/
def copyuvm (pgdir : PgDir) (sz : Nat) : K (PgDir × Option PgDir) := do
  match ← setupkvm ld with
  | none => pure (pgdir, none)
  | some d => do
    let (pgdir, d, ok) ← copyLoop sz (sz / PGSIZE + 1) pgdir d 0
    if ok then pure (pgdir, some d)
    else do
      freevm ld d
      pure (pgdir, none)

/-- `CoW_handler` for a fault at `va`. `none` when the process has to exit. -/
def CoW_handler (d : PgDir) (va : Nat) : K (Option PgDir) :=
  if (d.tab (pdx va)).isNone ∨ (d.get va).present = false then pure none
  else do
    let pa := (d.get va).ppn
    let refc ← get_refc pa
    if 1 < refc then do
      match ← kalloc with
      | none => throw (.panic "pagefault: kalloc failed")
      | some mem => do
        (fun s => .ok ((), s.setMem mem (s.mem pa)) : K Unit)
        let d := d.set va { ppn := mem, present := true, writable := true, user := true }
        decr_refc pa
        pure (some d)
    else pure (some (d.set va { d.get va with writable := true }))

end Xv6.Vm
