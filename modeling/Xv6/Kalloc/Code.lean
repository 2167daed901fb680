import Xv6.Lib.Chain
import Xv6.Lib.Run
import Xv6.Vm.Code

/-!
# `kalloc.c` with its free list

Every free page holds the pointer to the next one in its first word, so a page that is freed twice
ties the list into a circle. A call is one step. A call that panics has no next state.
-/

open Xv6.Link

namespace Xv6.Kalloc

structure Kmem where
  freelist : Option Nat
  /-- `((struct run*)P2V(p << PGSHIFT))->next` -/
  next : Nat → Option Nat
  freecnt : UInt32
  refc_cnt : Nat → Int32

/-- `kmem` is in the kernel's bss. The memory can hold anything. -/
def powerOn (next : Nat → Option Nat) : Kmem :=
  { freelist := none, next := next, freecnt := 0, refc_cnt := fun _ => 0 }

variable (ld : Vm.Linker)

def pageOf (pa : Nat) : Nat := pa / PGSIZE

def Kmem.setRefc (s : Kmem) (p : Nat) (n : Int32) : Kmem :=
  { s with refc_cnt := Function.update s.refc_cnt p n }

def incr_refc (pa : Nat) (s : Kmem) : Kmem :=
  s.setRefc (pageOf pa) (s.refc_cnt (pageOf pa) + 1)

def decr_refc (pa : Nat) (s : Kmem) : Kmem :=
  s.setRefc (pageOf pa) (s.refc_cnt (pageOf pa) - 1)

def kalloc (s : Kmem) : Kmem :=
  match s.freelist with
  | some r =>
    { s.setRefc r 1 with freelist := s.next r, freecnt := s.freecnt - 1 }
  | none => { s with freecnt := s.freecnt - 1 }

/-- `r->next = kmem.freelist; kmem.freelist = r; kmem.freecnt++`, after the `memset`. -/
def Kmem.push (s : Kmem) (r : Nat) : Kmem :=
  { s with
    freelist := some r
    next := Function.update s.next r s.freelist
    freecnt := s.freecnt + 1 }

/-- The address is that of a page that `kfree` accepts. -/
def Accepts (v : Nat) : Prop := v % PGSIZE = 0 ∧ ld.endAddr ≤ v ∧ V2P v < PHYSTOP

instance (v : Nat) : Decidable (Accepts ld v) := inferInstanceAs (Decidable (_ ∧ _ ∧ _))

/-- `kfree` after its checks, on the page `p`. -/
def freePage (p : Nat) (s : Kmem) : Kmem :=
  let s := if 0 < s.refc_cnt p then s.setRefc p (s.refc_cnt p - 1) else s
  if s.refc_cnt p = 0 then s.push p else s

def kfree (v : Nat) (s : Kmem) : Option Kmem :=
  if Accepts ld v then some (freePage (pageOf (V2P v)) s) else none

/-- The loop of `freerange` at `p`, for `n` rounds at most. -/
def freeLoop (vend : Nat) : Nat → Nat → Kmem → Option Kmem
  | 0, _, _ => none
  | n + 1, p, s =>
    if u32 (p + PGSIZE) ≤ vend then
      (kfree ld p (s.setRefc (pageOf (V2P p)) 0)).bind (freeLoop vend n (u32 (p + PGSIZE)))
    else some s

/-- `freerange`. The address space has `0x100000` pages, and `kfree` panics on some of them. -/
def freerange (vstart vend : Nat) (s : Kmem) : Option Kmem :=
  freeLoop ld vend 0x100000 (pgroundup vstart) s

def kinit1 (vstart vend : Nat) (s : Kmem) : Option Kmem :=
  freerange ld vstart vend { s with freecnt := 0 }

def kinit2 (vstart vend : Nat) (s : Kmem) : Option Kmem := freerange ld vstart vend s

/-- What `countfp` reports. -/
def countfp (s : Kmem) : UInt32 := s.freecnt

inductive Call
  | kinit1 (vstart vend : UInt32)
  | kinit2 (vstart vend : UInt32)
  | kalloc
  | kfree (v : UInt32)
  | incr_refc (pa : UInt32)
  | decr_refc (pa : UInt32)

def call (s : Kmem) : Call → Option Kmem
  | .kinit1 vstart vend => kinit1 ld vstart.toNat vend.toNat s
  | .kinit2 vstart vend => kinit2 ld vstart.toNat vend.toNat s
  | .kalloc => some (kalloc s)
  | .kfree v => kfree ld v.toNat s
  | .incr_refc pa => some (incr_refc pa.toNat s)
  | .decr_refc pa => some (decr_refc pa.toNat s)

/-- The page is on the free list. -/
def Kmem.Free (s : Kmem) (p : Nat) : Prop := ∃ l, Chain s.next s.freelist l ∧ p ∈ l

/-- A call, or a write by the owner of a page that is not free: the word that was a pointer while the
page was free can become anything. -/
inductive Step : Kmem → Option Call → Kmem → Prop
  | call {s s' : Kmem} (c : Call) : call ld s c = some s' → Step s (some c) s'
  | write {s : Kmem} {p : Nat} (x : Option Nat) : ¬ s.Free p →
      Step s none { s with next := Function.update s.next p x }

end Xv6.Kalloc
