import Xv6.Lib.Bytes
import Xv6.Mmu

/-!
# The user's allocator

`umalloc.c`. The headers of the blocks are in the memory of the program, and pointers are 32-bit
addresses. What `sbrk` answers comes from outside.
-/

open Xv6.Bytes

namespace Xv6.Umalloc

/-- The memory, `freep`, and what `sbrk` has given so far: the start and the length of each region. -/
structure Heap where
  mem : Mem
  freep : Nat
  regions : List (Nat × Nat)

/-- `p->s.ptr` -/
def Heap.ptr (s : Heap) (p : Nat) : Nat := load s.mem p 4

/-- `p->s.size`, in units of a header. -/
def Heap.size (s : Heap) (p : Nat) : Nat := load s.mem (p + 4) 4

def Heap.setPtr (s : Heap) (p v : Nat) : Heap := { s with mem := store s.mem p v 4 }

def Heap.setSize (s : Heap) (p v : Nat) : Heap := { s with mem := store s.mem (p + 4) v 4 }

/-- `p + n` for a `Header *`, whose size is 8. -/
def hadd (p n : Nat) : Nat := u32 (p + 8 * n)

/-- A loop that goes on for longer passes some address for the third time. -/
@[irreducible] def fuel : Nat := 0x400000000

/-- The loop of `free`: the block `p` after which `bp` belongs. `none` when it does not end. -/
def freeLoop (s : Heap) (bp : Nat) : Nat → Nat → Option Nat
  | 0, _ => none
  | k + 1, p =>
    if p < bp ∧ bp < s.ptr p then some p
    else if s.ptr p ≤ p ∧ (p < bp ∨ bp < s.ptr p) then some p
    else freeLoop s bp k (s.ptr p)

/-- The first `if` of `free`: `bp` takes the block after it in. -/
def joinNext (s : Heap) (p bp : Nat) : Heap :=
  if hadd bp (s.size bp) = s.ptr p then
    let s := s.setSize bp (u32 (s.size bp + s.size (s.ptr p)))
    s.setPtr bp (s.ptr (s.ptr p))
  else s.setPtr bp (s.ptr p)

/-- The second `if` of `free`: `p` takes `bp` in. -/
def joinPrev (s : Heap) (p bp : Nat) : Heap :=
  if hadd p (s.size p) = bp then
    let s := s.setSize p (u32 (s.size p + s.size bp))
    s.setPtr p (s.ptr bp)
  else s.setPtr p bp

/-- `free`, with `bp = (Header*)ap - 1`. -/
def free (s : Heap) (ap : Nat) : Option Heap :=
  let bp := u32 (ap + 0x100000000 - 8)
  (freeLoop s bp fuel s.freep).map fun p => { joinPrev (joinNext s p bp) p bp with freep := p }

/-- `morecore`, where `sbrk` returns `answer`, or -1 for `none`. It returns 0 or `freep`. -/
def morecore (s : Heap) (nu : Nat) (answer : Option Nat) : Option (Heap × Nat) :=
  let nu := if nu < 4096 then 4096 else nu
  match answer with
  | none => some (s, 0)
  | some p =>
    let s := { s with regions := (p, u32 (nu * 8)) :: s.regions }
    let s := s.setSize p nu
    (free s (hadd p 1)).map fun s => (s, s.freep)

/-- The loop of `malloc`. `none` when it does not end, or calls `sbrk` more often than there are answers. -/
def mallocLoop (nunits : Nat) : Nat → List (Option Nat) → Heap → Nat → Nat → Option (Heap × Nat)
  | 0, _, _, _, _ => none
  | k + 1, answers, s, prevp, p =>
    if nunits ≤ s.size p then
      if s.size p = nunits then some ({ s.setPtr prevp (s.ptr p) with freep := prevp }, hadd p 1)
      else
        let s := s.setSize p (u32 (s.size p + 0x100000000 - nunits))
        let p := hadd p (s.size p)
        some ({ s.setSize p nunits with freep := prevp }, hadd p 1)
    else if p = s.freep then
      match answers with
      | [] => none
      | answer :: answers =>
        (morecore s nunits answer).bind fun r =>
          if r.2 = 0 then some (r.1, 0) else mallocLoop nunits k answers r.1 r.2 (r.1.ptr r.2)
    else mallocLoop nunits k answers s p (s.ptr p)

/-- `nunits` for a request of `nbytes`. -/
def units (nbytes : Nat) : Nat := u32 (u32 (nbytes + 8 - 1) / 8 + 1)

/-- The first `malloc` makes the list, with nothing but `base` in it. -/
def initFree (base : Nat) (s : Heap) : Heap :=
  if s.freep = 0 then { (s.setPtr base base).setSize base 0 with freep := base } else s

/-- `malloc`, where the calls to `sbrk` return `answers`. It returns 0 or the address of the new block. -/
def malloc (base : Nat) (s : Heap) (nbytes : Nat) (answers : List (Option Nat)) : Option (Heap × Nat) :=
  let s := initFree base s
  mallocLoop (units nbytes) fuel answers s s.freep (s.ptr s.freep)

/-! ## The program -/

/-- The heap, and for each pointer that `malloc` returned and that has not been freed the size asked for. -/
structure State where
  heap : Heap
  live : Nat → Option Nat

inductive Act
  /-- `malloc(nbytes)`, and what `sbrk` returns in it. -/
  | malloc (nbytes : Nat) (answer : Option Nat)
  | free (ap : Nat)
  /-- The program writes a byte. -/
  | write (a : Nat) (b : UInt8)

def next (base : Nat) (s : State) : Act → Option State
  | .malloc nbytes answer =>
    (malloc base s.heap nbytes [answer]).map fun r =>
      { heap := r.1, live := if r.2 = 0 then s.live else Function.update s.live r.2 (some nbytes) }
  | .free ap => (free s.heap ap).map fun heap => { heap, live := Function.update s.live ap none }
  | .write a b => some { s with heap := { s.heap with mem := Function.update s.heap.mem a b } }

/-- The size of a request, with the header and rounded up. -/
def rounded (nbytes : Nat) : Nat := 8 * ((nbytes + 7) / 8 + 1)

/-- Memory from `a` on for this request is new: it is above `base` and above all the regions there are. -/
structure Fresh (base : Nat) (s : Heap) (nbytes a : Nat) : Prop where
  base : base + 8 ≤ a
  above : ∀ r ∈ s.regions, r.1 + r.2 ≤ a
  fits : a + max (8 * 4096) (rounded nbytes) < 0x100000000

/-- What the program may do, and what `sbrk` may answer. -/
def Allowed (base : Nat) (s : State) : Act → Prop
  | .malloc nbytes answer => rounded nbytes < 0x80000000 ∧ ∀ a ∈ answer, Fresh base s.heap nbytes a
  | .free ap => s.live ap ≠ none
  | .write a _ => ∃ p n, s.live p = some n ∧ p ≤ a ∧ a < p + n

/-- Before the first call. The memory is arbitrary. -/
def start (mem : Mem) : State := ⟨⟨mem, 0, []⟩, fun _ => none⟩

end Xv6.Umalloc
