import Xv6.Lib.Run
import Xv6.Param
import Xv6.Vm.Code

/-!
# Processes and their memory

The parts of `main.c`, `proc.c`, `exec.c`, `pipe.c` and `trap.c` that allocate, map, share and free
pages. Every system call is one step.
-/

open Xv6.Cmd Xv6.Vm

namespace Xv6.Sys

/-- A slot of `ptable` that is not `UNUSED`. -/
structure Proc where
  sz : Nat
  pgdir : PgDir
  kstack : Nat
  zombie : Bool

structure Pipe where
  page : Nat
  readopen : Bool
  writeopen : Bool

structure Machine where
  phys : Phys
  kpgdir : PgDir
  /-- The stacks that `startothers` gives to the other CPUs. -/
  apstacks : List Nat
  proc : Fin NPROC → Option Proc
  pipes : List Pipe

abbrev M := Cmd Stop Machine

variable (ld : Linker)

/-- A call of the allocator or of `vm.c`. -/
def onPhys {α : Type} (x : K α) : M α := zoom Machine.phys (fun m ph => { m with phys := ph }) x

def Machine.setProc (m : Machine) (i : Fin NPROC) (p : Option Proc) : Machine :=
  { m with proc := Function.update m.proc i p }

def setProc (i : Fin NPROC) (p : Option Proc) : M Unit := fun m => .ok ((), m.setProc i p)

/-! ## Boot -/

/-- The first page after the kernel. -/
def firstPage : Nat := (ld.endAddr - KERNBASE + PGSIZE - 1) / PGSIZE

/-- `freerange(end, P2V(4*1024*1024))` -/
def kinit1 : K Unit := freerange ld (List.range' (firstPage ld) (0x400 - firstPage ld))

/-- `freerange(P2V(4*1024*1024), P2V(PHYSTOP))` -/
def kinit2 : K Unit := freerange ld (List.range' 0x400 (PHYSTOP / PGSIZE - 0x400))

/-- `startothers`, for `n` more CPUs. -/
def startothers : Nat → K (List Nat)
  | 0 => pure []
  | n + 1 => do
    match ← kalloc with
    | none => throw .fault
    | some stack => do
      let rest ← startothers n
      pure (stack :: rest)

def kvmalloc : K PgDir := do
  match ← setupkvm ld with
  | none => throw .fault
  | some d => pure d

/-- `main` up to the end of `kinit2`, on a machine with `ncpu` CPUs. -/
def bootMain (ncpu : Nat) : K (PgDir × List Nat) := do
  kinit1 ld
  let kpgdir ← kvmalloc ld
  let apstacks ← startothers (ncpu - 1)
  kinit2 ld
  pure (kpgdir, apstacks)

/-- `kmem` before `kinit1`, and any memory contents. -/
def powerOn (mem : Nat → Page) : Phys :=
  { freelist := [], freecnt := 0, refc_cnt := fun _ => 0, mem := mem }

def boot (ncpu : Nat) (mem : Nat → Page) : Except Stop Machine :=
  (bootMain ld ncpu (powerOn mem)).map fun (r, phys) =>
    { phys := phys, kpgdir := r.1, apstacks := r.2, proc := fun _ => none, pipes := [] }

/-! ## `proc.c` -/

/-- The `UNUSED` slot that `allocproc` finds. -/
def Machine.unused (m : Machine) : Option (Fin NPROC) :=
  (List.finRange NPROC).find? fun i => (m.proc i).isNone

/-- `allocproc`: a slot and a kernel stack for it. -/
def allocproc : M (Option (Fin NPROC × Nat)) := fun m =>
  match m.unused with
  | none => .ok (none, m)
  | some j => (do
    match ← onPhys kalloc with
    | none => pure none
    | some kstack => pure (some (j, kstack)) : M _) m

/-- `userinit`, with `init` the code of `initcode.S`. -/
def userinit (init : List UInt8) : M Unit := do
  match ← allocproc with
  | none => throw .fault
  | some (j, kstack) => do
    match ← onPhys (setupkvm ld) with
    | none => throw (.panic "userinit: out of memory?")
    | some d => do
      let d ← onPhys (inituvm d init)
      setProc j (some { sz := PGSIZE, pgdir := d, kstack := kstack, zombie := false })

/-- `fork` by the process `p` in slot `i`. `false` stands for -1. -/
def fork (i : Fin NPROC) (p : Proc) : M Bool := do
  match ← allocproc with
  | none => pure false
  | some (j, kstack) => do
    let (pgdir, d) ← onPhys (copyuvm ld p.pgdir p.sz)
    setProc i (some { p with pgdir := pgdir })
    match d with
    | none => do
      onPhys (kfree ld kstack)
      pure false
    | some d => do
      setProc j (some { sz := p.sz, pgdir := d, kstack := kstack, zombie := false })
      pure true

/-- `sz + n` as `uint`. -/
def addInt (sz : Nat) (n : Int) : Nat := (((sz : Int) + n) % 0x100000000).toNat

/-- `growproc`. `false` stands for -1. -/
def growproc (i : Fin NPROC) (p : Proc) (n : Int) : M Bool :=
  if 0 < n then do
    let (d, sz) ← onPhys (allocuvm ld p.pgdir p.sz (addInt p.sz n))
    if sz = 0 then do
      setProc i (some { p with pgdir := d })
      pure false
    else do
      setProc i (some { p with pgdir := d, sz := sz })
      pure true
  else if n < 0 then do
    let (d, sz) ← onPhys (deallocuvm ld p.pgdir p.sz (addInt p.sz n))
    if sz = 0 then do
      setProc i (some { p with pgdir := d })
      pure false
    else do
      setProc i (some { p with pgdir := d, sz := sz })
      pure true
  else pure true

/-- The slot of the first process. -/
def initproc : Fin NPROC := ⟨0, by decide⟩

/-- `exit`. Closing the files is `pipeclose`. -/
def exit (i : Fin NPROC) (p : Proc) : M Unit :=
  if i = initproc then throw (.panic "init exiting")
  else setProc i (some { p with zombie := true })

/-- `wait` finds the `ZOMBIE` child `p` in slot `j`. -/
def wait (j : Fin NPROC) (p : Proc) : M Unit := do
  onPhys (kfree ld p.kstack)
  onPhys (freevm ld p.pgdir)
  setProc j none

/-! ## Pipes -/

/-- `pipealloc`. `files` says whether both calls of `filealloc` succeed. -/
def pipealloc (files : Bool) : M Bool :=
  if files = false then pure false
  else do
    match ← onPhys kalloc with
    | none => pure false
    | some p =>
      (fun m => .ok (true,
        { m with pipes := { page := p, readopen := true, writeopen := true } :: m.pipes }) : M Bool)

def Pipe.close (pp : Pipe) (writable : Bool) : Pipe :=
  if writable then { pp with writeopen := false } else { pp with readopen := false }

/-- `pipeclose` of one end of the `k`-th pipe `pp`. -/
def pipeclose (k : Nat) (pp : Pipe) (writable : Bool) : M Unit :=
  let pp := pp.close writable
  if pp.readopen = false ∧ pp.writeopen = false then do
    onPhys (kfree ld pp.page)
    (fun m => .ok ((), { m with pipes := m.pipes.eraseIdx k }) : M Unit)
  else fun m => .ok ((), { m with pipes := m.pipes.set k pp })

/-! ## User-mode accesses -/

/-- An access by the process is allowed: the address is below `sz` and its entry has `PTE_U`. -/
def Proc.Maps (p : Proc) (va : Nat) : Prop :=
  va < p.sz ∧ (p.pgdir.get va).present = true ∧ (p.pgdir.get va).user = true

instance (p : Proc) (va : Nat) : Decidable (p.Maps va) := inferInstanceAs (Decidable (_ ∧ _ ∧ _))

/-- A page fault at `va` while the process `p` of slot `i` runs. -/
def fault (i : Fin NPROC) (p : Proc) (va : Nat) : M Unit := do
  match ← onPhys (CoW_handler p.pgdir va) with
  | none => exit i p
  | some d => setProc i (some { p with pgdir := d })

def Phys.byte (s : Phys) (d : PgDir) (va : Nat) : UInt8 := s.mem (d.get va).ppn (va % PGSIZE)

def Phys.setByte (s : Phys) (d : PgDir) (va : Nat) (b : UInt8) : Phys :=
  s.setMem (d.get va).ppn (Function.update (s.mem (d.get va).ppn) (va % PGSIZE) b)

/-- A store. Without `PTE_W` it faults first and is then retried. -/
def store (i : Fin NPROC) (p : Proc) (va : Nat) (b : UInt8) : M Unit :=
  if (p.pgdir.get va).writable then
    fun m => .ok ((), { m with phys := Phys.setByte m.phys p.pgdir va b })
  else do
    match ← onPhys (CoW_handler p.pgdir va) with
    | none => exit i p
    | some d => do
      setProc i (some { p with pgdir := d })
      (fun m => .ok ((), { m with phys := Phys.setByte m.phys d va b }) : M Unit)

/-! ## `exec.c` -/

/-- `readi` of a regular file with contents `ip`. `none` stands for -1. -/
def readi (ip : List UInt8) (off n : Nat) : Option (List UInt8) :=
  if ip.length < off ∨ u32 (off + n) < off then none else some ((ip.drop off).take n)

/-- A read that `exec` insists on having in full. -/
def readFull (ip : List UInt8) (off n : Nat) : Option (List UInt8) :=
  (readi ip off n).filter fun b => b.length = n

/-- The little-endian number in `n` bytes of `b` from `i` on. -/
def number (b : List UInt8) (i : Nat) : Nat → Nat
  | 0 => 0
  | n + 1 => (b.getD i 0).toNat + 256 * number b (i + 1) n

def sub32 (a b : Nat) : Nat := u32 (a + (0x100000000 - u32 b))

/-- The page with `bs` written at `off`. -/
def writeBytes (b : Page) (off : Nat) (bs : List UInt8) : Page := fun j =>
  if off ≤ j ∧ j < off + bs.length then bs.getD (j - off) 0 else b j

/-- The loop of `loaduvm`, with `n` rounds left. `false` stands for -1. -/
def loadLoop (d : PgDir) (addr : Nat) (ip : List UInt8) (offset sz : Nat) : Nat → Nat → K Bool
  | 0, i => if i < sz then throw .hang else pure true
  | n + 1, i =>
    if i < sz then
      if (d.tab (pdx (u32 (addr + i)))).isNone then throw (.panic "loaduvm: address should exist")
      else
        let pa := (d.get (u32 (addr + i))).ppn
        let len := if sz - i < PGSIZE then sz - i else PGSIZE
        match readi ip (u32 (offset + i)) len with
        | none => pure false
        | some bs => do
          (fun s => .ok ((), s.setMem pa (writeBytes (s.mem pa) 0 bs)) : K Unit)
          if bs.length = len then loadLoop d addr ip offset sz n (i + PGSIZE) else pure false
    else pure true

def loaduvm (d : PgDir) (addr : Nat) (ip : List UInt8) (offset sz : Nat) : K Bool :=
  if addr % PGSIZE ≠ 0 then throw (.panic "loaduvm: addr must be page aligned")
  else loadLoop d addr ip offset sz (sz / PGSIZE + 1) 0

/-- `exec`'s loop over `n` program headers from `off` on. `none` is a `goto bad`. -/
def loadSegs (ip : List UInt8) : Nat → Nat → PgDir → Nat → K (PgDir × Option Nat)
  | 0, _, d, sz => pure (d, some sz)
  | n + 1, off, d, sz =>
    match readFull ip off 32 with
    | none => pure (d, none)
    | some ph =>
      let vaddr := number ph 8 4
      let filesz := number ph 16 4
      let memsz := number ph 20 4
      if number ph 0 4 ≠ 1 then loadSegs ip n (u32 (off + 32)) d sz
      else if memsz < filesz then pure (d, none)
      else if u32 (vaddr + memsz) < vaddr then pure (d, none)
      else do
        let (d, sz) ← allocuvm ld d sz (u32 (vaddr + memsz))
        if sz = 0 then pure (d, none)
        else if vaddr % PGSIZE ≠ 0 then pure (d, none)
        else do
          let ok ← loaduvm d vaddr ip (number ph 4 4) filesz
          if ok then loadSegs ip n (u32 (off + 32)) d sz else pure (d, none)

def ELF_MAGIC : Nat := 0x464C457F

/-- `exec` up to the argument strings: the new page table, unless there is none yet, and its size,
unless it is `bad`. -/
def loadImage (ip : List UInt8) : K (Option (PgDir × Option Nat)) :=
  match readFull ip 0 52 with
  | none => pure none
  | some elf =>
    if number elf 0 4 ≠ ELF_MAGIC then pure none
    else do
      match ← setupkvm ld with
      | none => pure none
      | some d => do
        let (d, sz) ← loadSegs ld ip (number elf 44 2) (number elf 28 4) d 0
        match sz with
        | none => pure (some (d, none))
        | some sz => do
          let sz := pgroundup sz
          let (d, sz) ← allocuvm ld d sz (u32 (sz + 2 * PGSIZE))
          if sz = 0 then pure (some (d, none))
          else do
            let d ← clearpteu d (sub32 sz (2 * PGSIZE))
            pure (some (d, some sz))

/-! ## `copyout`

`uva2ka` does not look whether `walkpgdir` has found a table. Without one it reads address 0, in the
page table of the process that calls `exec`, and takes the word there for the entry. So the page
that `copyout` writes to can be any page, a page table too. -/

def Pte.ofWord (w : Nat) : Pte where
  ppn := w / 0x1000
  present := w % 2 = 1
  writable := w / 2 % 2 = 1
  user := w / 4 % 2 = 1

def Pte.word (e : Pte) : Nat :=
  e.ppn * 0x1000 + e.present.toNat + 2 * e.writable.toNat + 4 * e.user.toNat

/-- The end of `uva2ka`. -/
def Pte.ka (e : Pte) : Option Nat := if e.present ∧ e.user then some e.ppn else none

def uva2ka (i : Fin NPROC) (d : PgDir) (uva : Nat) : M (Option Nat) := fun m =>
  if (d.tab (pdx uva)).isSome then .ok (Pte.ka (d.get uva), m)
  else
    match m.proc i with
    | none => .error .fault
    | some p =>
      if (p.pgdir.get 0).present then
        let word := (List.range 4).map (m.phys.mem (p.pgdir.get 0).ppn)
        .ok (Pte.ka (Pte.ofWord (number word 0 4)), m)
      else .error .fault

/-- The entry `e` with number `j` of a page table, after `bs` is written at `off` of its page. -/
def pokeEntry (j off : Nat) (bs : List UInt8) (e : Pte) : Pte :=
  if off < 4 * j + 4 ∧ 4 * j < off + bs.length then
    let old : Page := fun k => UInt8.ofNat (Pte.word e / 256 ^ (k - 4 * j))
    let word := (List.range 4).map fun k => writeBytes old off bs (4 * j + k)
    Pte.ofWord (number word 0 4)
  else e

def pokeDir (q off : Nat) (bs : List UInt8) (d : PgDir) : PgDir :=
  { d with
    tab := fun i => (d.tab i).map fun t =>
      if t.page = q then { t with entry := fun j => pokeEntry j off bs (t.entry j) } else t }

/-- The page holds kernel data other than a page table: it is part of the kernel image, a free
page, a stack, a page directory or a pipe. -/
def Machine.KernelData (m : Machine) (d : PgDir) (q : Nat) : Prop :=
  (P2V (q * PGSIZE) < ld.endAddr ∨ PHYSTOP ≤ q * PGSIZE) ∨ q ∈ m.phys.freelist ∨ q ∈ m.apstacks ∨
  q = m.kpgdir.page ∨ q = d.page ∨ (∃ pp ∈ m.pipes, pp.page = q) ∨
  ∃ i, ∃ p ∈ m.proc i, p.kstack = q ∨ p.pgdir.page = q

instance (m : Machine) (d : PgDir) (q : Nat) : Decidable (m.KernelData ld d q) := by
  unfold Machine.KernelData
  infer_instance

/-- `memmove(pa0 + off, buf, n)` into the page `q`. -/
def poke (d : PgDir) (q off : Nat) (bs : List UInt8) : M PgDir := fun m =>
  if m.KernelData ld d q then .error .wild
  else
    .ok (pokeDir q off bs d,
      { m with
        phys := m.phys.setMem q (writeBytes (m.phys.mem q) off bs)
        kpgdir := pokeDir q off bs m.kpgdir
        proc := fun i => (m.proc i).map fun p => { p with pgdir := pokeDir q off bs p.pgdir } })

/-- The loop of `copyout`, for at most `n` bytes. `false` stands for -1. -/
def copyLoop (i : Fin NPROC) : Nat → PgDir → Nat → List UInt8 → M (PgDir × Bool)
  | 0, d, _, _ => pure (d, true)
  | n + 1, d, va, buf =>
    if buf.length = 0 then pure (d, true)
    else do
      let va0 := pgrounddown va
      match ← uva2ka i d va0 with
      | none => pure (d, false)
      | some q => do
        let len := if buf.length < PGSIZE - (va - va0) then buf.length else PGSIZE - (va - va0)
        let d ← poke ld d q (va - va0) (buf.take len)
        copyLoop i n d (u32 (va0 + PGSIZE)) (buf.drop len)

def copyout (i : Fin NPROC) (d : PgDir) (va : Nat) (buf : List UInt8) : M (PgDir × Bool) :=
  copyLoop ld i buf.length d va buf

/-- `exec`'s loop over `argv`. It returns the stack pointer and the pointers for `ustack`. -/
def pushArgs (i : Fin NPROC) : List (List UInt8) → PgDir → Nat → List Nat →
    M (PgDir × Option (Nat × List Nat))
  | [], d, sp, ustack => pure (d, some (sp, ustack))
  | arg :: argv, d, sp, ustack =>
    if MAXARG ≤ ustack.length then pure (d, none)
    else do
      let sp := sub32 sp (arg.length + 1) / 4 * 4
      let (d, ok) ← copyout ld i d sp (arg ++ [0])
      if ok then pushArgs i argv d sp (ustack ++ [sp]) else pure (d, none)

def wordBytes (w : Nat) : List UInt8 := (List.range 4).map fun k => UInt8.ofNat (w / 256 ^ k)

/-- The rest of the argument phase: `ustack` goes below the strings. -/
def pushStack (i : Fin NPROC) (argv : List (List UInt8)) (d : PgDir) (sz : Nat) : M (PgDir × Bool) := do
  let (d, r) ← pushArgs ld i argv d sz []
  match r with
  | none => pure (d, false)
  | some (sp, ptrs) =>
    let argc := ptrs.length
    let ustack := [0xffffffff, argc, sub32 sp ((argc + 1) * 4)] ++ ptrs ++ [0]
    copyout ld i d (sub32 sp ((3 + argc + 1) * 4)) (ustack.flatMap wordBytes)

/-- The end of `exec`: the process gets the image `d`. -/
def commitImage (i : Fin NPROC) (d : PgDir) (sz : Nat) : M Bool := fun m =>
  match m.proc i with
  | none => .error .fault
  | some p => (do
    setProc i (some { p with pgdir := d, sz := sz })
    onPhys (freevm ld p.pgdir)
    pure true : M Bool) m

/-- `exec` of the file `ip`, if the path names one. `false` stands for -1. -/
def exec (i : Fin NPROC) (ip : Option (List UInt8)) (argv : List (List UInt8)) : M Bool :=
  match ip with
  | none => pure false
  | some ip => do
    match ← onPhys (loadImage ld ip) with
    | none => pure false
    | some (d, none) => do
      onPhys (freevm ld d)
      pure false
    | some (d, some sz) => do
      let (d, ok) ← pushStack ld i argv d sz
      if ok then commitImage ld i d sz
      else do
        onPhys (freevm ld d)
        pure false

/-! ## `sys_exec` -/

/-- The loop of `fetchstr` over the last `n` bytes of the memory of `p`. The outer `none` is a page
fault in the kernel, the inner one stands for -1. -/
def fetchLoop (s : Phys) (p : Proc) : Nat → Option (Option (List UInt8))
  | 0 => some none
  | n + 1 =>
    let va := p.sz - (n + 1)
    if (p.pgdir.get va).present = false then none
    else if Phys.byte s p.pgdir va = 0 then some (some [])
    else (fetchLoop s p n).map (Option.map (Phys.byte s p.pgdir va :: ·))

def fetchstr (s : Phys) (p : Proc) (addr : Nat) : Option (Option (List UInt8)) :=
  if p.sz ≤ addr then some none else fetchLoop s p (p.sz - addr)

/-- The strings at the addresses `uargv`. -/
def fetchArgs (s : Phys) (p : Proc) : List Nat → Option (Option (List (List UInt8)))
  | [] => some (some [])
  | addr :: uargv =>
    match fetchstr s p addr with
    | none => none
    | some none => some none
    | some (some arg) => (fetchArgs s p uargv).map (Option.map (arg :: ·))

/-- `sys_exec`, where `uargv` are the words before the null pointer at the end of the array. A page
fault on the way calls `exit`. -/
def sys_exec (i : Fin NPROC) (p : Proc) (ip : Option (List UInt8)) (uargv : List Nat) : M Bool :=
  fun m =>
    match fetchArgs m.phys p (uargv.take MAXARG) with
    | none => (do exit i p; pure false : M Bool) m
    | some none => .ok (false, m)
    | some (some argv) => if MAXARG ≤ uargv.length then .ok (false, m) else exec ld i ip argv m

/-! ## Steps -/

inductive Act
  | userinit (init : List UInt8)
  | fork (i : Fin NPROC)
  | exec (i : Fin NPROC) (ip : Option (List UInt8)) (uargv : List Nat)
  | growproc (i : Fin NPROC) (n : Int)
  | exit (i : Fin NPROC)
  | wait (i j : Fin NPROC)
  | pipealloc (i : Fin NPROC) (files : Bool)
  | pipeclose (i : Fin NPROC) (k : Nat) (writable : Bool)
  | fault (i : Fin NPROC) (va : Nat)
  | load (i : Fin NPROC) (va : Nat)
  | store (i : Fin NPROC) (va : Nat) (b : UInt8)

/-- A call by the process in slot `i`, which has not exited. -/
def Machine.by (m : Machine) (i : Fin NPROC) (f : Proc → M Unit) : Option Machine :=
  match m.proc i with
  | some p => if p.zombie then none else (f p m).toOption.map Prod.snd
  | none => none

/-- The end of the pipe that a `pipeclose` closes is still open. -/
def Pipe.openEnd (pp : Pipe) (writable : Bool) : Bool := if writable then pp.writeopen else pp.readopen

/-- One step. There is none when the call is not possible or the kernel stops. -/
def next (m : Machine) : Act → Option Machine
  | .userinit init =>
    if ∀ i, (m.proc i).isNone then (userinit ld init m).toOption.map Prod.snd else none
  | .fork i => m.by i fun p => do let _ ← fork ld i p
  | .exec i ip uargv => m.by i fun p => do let _ ← sys_exec ld i p ip uargv
  | .growproc i n => m.by i fun p => do let _ ← growproc ld i p n
  | .exit i => m.by i fun p => exit i p
  | .wait i j => m.by i fun _ =>
    match m.proc j with
    | some p => if p.zombie then wait ld j p else throw .hang
    | none => throw .hang
  | .pipealloc i files => m.by i fun _ => do let _ ← pipealloc files
  | .pipeclose i k writable => m.by i fun _ =>
    match m.pipes[k]? with
    | some pp => if pp.openEnd writable then pipeclose ld k pp writable else throw .hang
    | none => throw .hang
  | .fault i va => m.by i fun p => if p.Maps va then fault i p va else throw .fault
  | .load i va => m.by i fun p => if p.Maps va then pure () else throw .fault
  | .store i va b => m.by i fun p => if p.Maps va then store i p va b else throw .fault

end Xv6.Sys
