import Xv6.Lib.Run
import Xv6.Umalloc.Blocks
import Xv6.Umalloc.Code

/-!
# The invariant of the user's heap

Whatever a program asks for and gives back, and whatever it writes into the memory it has been given,
the headers in memory describe disjoint blocks, and the free ones are linked in the order of their
addresses.
-/

open Xv6.Bytes Xv6.Loop Xv6.Run Function Finset

namespace Xv6.Umalloc

variable {base a b p bp v n : Nat} {s s' : Heap} {F : Finset Nat} {L L' : Nat → Prop}

/-! ## Headers in memory -/

/-- Two header addresses are equal, or the headers do not overlap. -/
def Sep (b a : Nat) : Prop := b = a ∨ a + 8 ≤ b ∨ b + 8 ≤ a

theorem ptr_setPtr (h : Sep b a) (hv : v < 0x100000000) : (s.setPtr a v).ptr b = update s.ptr a v b := by
  rcases h with rfl | h
  · rw [update_self, Heap.ptr, Heap.setPtr, load_store]
    exact Nat.mod_eq_of_lt hv
  · rw [update_of_ne (by omega)]
    exact load_store_of_out (by omega)

theorem size_setPtr (h : Sep b a) : (s.setPtr a v).size b = s.size b :=
  load_store_of_out (by rcases h with rfl | h <;> omega)

theorem ptr_setSize (h : Sep b a) : (s.setSize a v).ptr b = s.ptr b :=
  load_store_of_out (by rcases h with rfl | h <;> omega)

theorem size_setSize (h : Sep b a) (hv : v < 0x100000000) :
    (s.setSize a v).size b = update s.size a v b := by
  rcases h with rfl | h
  · rw [update_self, Heap.size, Heap.setSize, load_store]
    exact Nat.mod_eq_of_lt hv
  · rw [update_of_ne (by omega)]
    exact load_store_of_out (by omega)

theorem hadd_of_lt (h : p + 8 * n < 0x100000000) : hadd p n = p + 8 * n := u32_of_lt h

theorem Blocks.sep {R : List (Nat × Nat)} {ptr size : Nat → Nat} (h : Blocks base R ptr size F L)
    (ha : Header F L a) (hb : Header F L b) : Sep a b := by
  by_cases hab : a = b
  · exact .inl hab
  · have := h.spread hb ha (Ne.symm hab)
    exact .inr (by omega)

theorem Blocks.lt {R : List (Nat × Nat)} {ptr size : Nat → Nat} (h : Blocks base R ptr size F L)
    (hbase : base < 0x100000000) (ha : Header F L a) : a < 0x100000000 := by
  by_cases hab : a = base
  · omega
  · have := h.bounds ha hab
    omega

/-! ## `free` -/

/-- The heap `s` has the free blocks `F` and the blocks `L` in use. -/
structure Inv (base : Nat) (s : Heap) (F : Finset Nat) (L : Nat → Prop) : Prop where
  pos : 0 < base
  lt : base < 0x100000000
  blocks : Blocks base s.regions s.ptr s.size F L
  tight : Tight s.ptr s.size F
  freep : s.freep ∈ F

theorem Inv.card (h : Inv base s F L) : F.card ≤ 0x100000000 := by
  have hsub : F ⊆ Finset.range 0x100000000 := fun a ha => mem_range.mpr (h.blocks.lt h.lt (.inl ha))
  exact (card_le_card hsub).trans_eq (card_range _)

theorem freeLoop_finds {t : Nat} (hc : Circular F s.ptr) (ht : t ∈ F) (hbt : Between s.ptr t bp) {k : Nat} (hp : p ∈ F)
    (hk : dist F t p < k) : ∃ q ∈ F, freeLoop s bp k p = some q ∧ Between s.ptr q bp := by
  induction k generalizing p with
  | zero => omega
  | succ k ih =>
    rw [freeLoop]
    split
    · next h => exact ⟨p, hp, rfl, .inl h⟩
    · next h1 =>
      split
      · next h2 => exact ⟨p, hp, rfl, .inr h2⟩
      · next h2 =>
        have hne : p ≠ t := by
          rintro rfl
          exact hbt.elim h1 h2
        have := hc.dist_next hp ht hne
        exact ih (hc.mem p hp) (by omega)

/-- `bp` is in the list of `t` behind `p`, apart from the pointer of `p`, and only `p` may still end where the next
block begins. -/
structure Linked (base : Nat) (s t : Heap) (F : Finset Nat) (L : Nat → Prop) (p bp : Nat) : Prop where
  mem : bp ∈ F
  prev : p ∈ F
  blocks : Blocks base s.regions (Function.update t.ptr p bp) t.size F L
  tight : ∀ a ∈ F, a ≠ p → ¬ Abuts (Function.update t.ptr p bp) t.size a
  size_le : s.size bp ≤ t.size bp
  live : ∀ x, L x → t.size x = s.size x

section Link

variable (h : Inv base s F L) (hb : Blocks.New s.regions s.size F L bp) (hp : p ∈ F) (hbt : Between s.ptr p bp)

include h hb hp hbt

theorem linked_setPtr (hno : bp + 8 * s.size bp ≠ s.ptr p) :
    Linked base s (s.setPtr bp (s.ptr p)) (insert bp F) L p bp := by
  have hins := h.blocks.insert hb hp hbt
  have hmem : bp ∈ insert bp F := mem_insert_self bp F
  have hsep : ∀ a, Header (insert bp F) L a → Sep a bp := fun a ha => hins.sep ha (.inl hmem)
  have hptr : ∀ a ∈ insert bp F, update (s.setPtr bp (s.ptr p)).ptr p bp a =
      update (update s.ptr bp (s.ptr p)) p bp a := by
    intro a ha
    by_cases hap : a = p
    · rw [hap, update_self, update_self]
    · rw [update_of_ne hap, update_of_ne hap,
        ptr_setPtr (hsep a (.inl ha)) (h.blocks.lt h.lt (.inl (h.blocks.circ.mem p hp)))]
  have hsize : ∀ a, Header (insert bp F) L a → (s.setPtr bp (s.ptr p)).size a = s.size a :=
    fun a ha => size_setPtr (hsep a ha)
  refine ⟨hmem, mem_insert_of_mem hp, hins.congr hptr hsize, fun a ha hap => ?_,
    Nat.le_of_eq (hsize bp (.inl hmem)).symm, fun x hx => hsize x (.inr hx)⟩
  rw [Abuts, hptr a ha, hsize a (.inl ha), update_of_ne hap]
  rcases mem_insert.mp ha with rfl | haF
  · rw [update_self]
    exact fun hc => hno hc.2
  · have hne : a ≠ bp := fun heq => hb.not_header (.inl (heq ▸ haF))
    rw [update_of_ne hne]
    exact h.tight a haF

theorem linked_join (hjoin : bp + 8 * s.size bp = s.ptr p) :
    Linked base s (joinNext s p bp) ((insert bp F).erase (s.ptr p)) L p bp := by
  have hins := h.blocks.insert hb hp hbt
  have hmem : bp ∈ insert bp F := mem_insert_self bp F
  have hq := h.blocks.circ.mem p hp
  have hpos := hb.pos
  have hbounds := hb.covered.bounds hb.pos h.blocks.bounded
  have hsep : ∀ a, Header (insert bp F) L a → Sep a bp := fun a ha => hins.sep ha (.inl hmem)
  have hsepF : ∀ a ∈ F, Sep a bp := fun a ha => hsep a (.inl (mem_insert_of_mem ha))
  have hne : bp ≠ p := fun heq => hb.not_header (.inl (heq ▸ hp))
  have hqbp : s.ptr p ≠ bp := by omega
  have hqp : s.ptr p ≠ p := by
    intro heq
    have hmax := h.blocks.circ.wrap p hp (Nat.le_of_eq heq) base h.blocks.base_mem
    have hmin := h.blocks.base_le (.inl hp)
    omega
  have hqend := h.blocks.bounds (.inl hq) (by omega)
  have hsum : s.size bp + s.size (s.ptr p) < 0x100000000 := by omega
  -- the code, with its reads done
  have hcode : joinNext s p bp =
      (s.setSize bp (s.size bp + s.size (s.ptr p))).setPtr bp (s.ptr (s.ptr p)) := by
    rw [joinNext, if_pos ((hadd_of_lt hbounds.2).trans hjoin)]
    dsimp only
    rw [ptr_setSize (hsepF p hp), ptr_setSize (hsepF _ hq), u32_of_lt hsum]
  have hptr : ∀ a, Header (insert bp F) L a → (joinNext s p bp).ptr a = update s.ptr bp (s.ptr (s.ptr p)) a := by
    intro a ha
    rw [hcode, ptr_setPtr (hsep a ha) (h.blocks.lt h.lt (.inl (h.blocks.circ.mem _ hq)))]
    by_cases hab : a = bp
    · rw [hab, update_self, update_self]
    · rw [update_of_ne hab, update_of_ne hab, ptr_setSize (hsep a ha)]
  have hsize : ∀ a, Header (insert bp F) L a →
      (joinNext s p bp).size a = update s.size bp (s.size bp + s.size (s.ptr p)) a := by
    intro a ha
    rw [hcode, size_setPtr (hsep a ha), size_setSize (hsep a ha) hsum]
  -- the list with `bp` in it, and then `bp` and the block after it joined
  obtain ⟨ptr, hdef⟩ : ∃ f, f = update (update s.ptr bp (s.ptr p)) p bp := ⟨_, rfl⟩
  rw [← hdef] at hins
  have hbp : ptr bp = s.ptr p := by rw [hdef, update_of_ne hne, update_self]
  have hpp : ptr p = bp := by rw [hdef, update_self]
  have hold : ∀ a, a ≠ bp → a ≠ p → ptr a = s.ptr a := fun a h1 h2 => by
    rw [hdef, update_of_ne h2, update_of_ne h1]
  have hab : Abuts ptr s.size bp := by
    rw [Abuts, hbp]
    exact ⟨by omega, hjoin⟩
  have hj := hins.join hmem hab
  rw [hbp, hold _ hqbp hqp] at hj
  have hsub : ∀ a, Header ((insert bp F).erase (s.ptr p)) L a → Header (insert bp F) L a :=
    fun a ha => ha.imp_left mem_of_mem_erase
  have hptr' : ∀ a ∈ (insert bp F).erase (s.ptr p), update (joinNext s p bp).ptr p bp a =
      update ptr bp (s.ptr (s.ptr p)) a := by
    intro a ha
    by_cases hap : a = p
    · rw [hap, update_self, update_of_ne (Ne.symm hne), hpp]
    rw [update_of_ne hap, hptr a (hsub a (.inl ha))]
    by_cases habp : a = bp
    · rw [habp, update_self, update_self]
    · rw [update_of_ne habp, update_of_ne habp, hold a habp hap]
  refine ⟨mem_erase.mpr ⟨Ne.symm hqbp, hmem⟩,
    mem_erase.mpr ⟨Ne.symm hqp, mem_insert_of_mem hp⟩,
    hj.congr hptr' fun a ha => hsize a (hsub a ha), fun a ha hap hc => ?_, ?_, fun x hx => ?_⟩
  · rw [Abuts, hptr' a ha, hsize a (hsub a (.inl ha))] at hc
    have hcases := hins.abuts_join hmem hab (c := a)
    rw [hbp, hold _ hqbp hqp] at hcases
    rcases hcases hc with ⟨-, hc⟩ | ⟨habp, hc⟩
    · rw [Abuts, hold _ hqbp hqp] at hc
      exact h.tight _ hq hc
    · rw [Abuts, hold a habp hap] at hc
      exact h.tight a ((mem_insert.mp (mem_of_mem_erase ha)).resolve_left habp) hc
  · rw [hsize bp (.inl hmem), update_self]
    omega
  · have hxbp : x ≠ bp := fun heq => hb.not_header (.inr (heq ▸ hx))
    rw [hsize x (.inr hx), update_of_ne hxbp]

theorem joinNext_linked : ∃ F', Linked base s (joinNext s p bp) F' L p bp := by
  have hbounds := hb.covered.bounds hb.pos h.blocks.bounded
  by_cases hjoin : bp + 8 * s.size bp = s.ptr p
  · exact ⟨_, linked_join h hb hp hbt hjoin⟩
  · refine ⟨insert bp F, ?_⟩
    rw [joinNext, hadd_of_lt hbounds.2, if_neg hjoin]
    exact linked_setPtr h hb hp hbt hjoin

end Link

/-- `p` is followed by `bp`, and no two free blocks are neighbours any more. -/
structure Freed (base : Nat) (s t : Heap) (F : Finset Nat) (L : Nat → Prop) (p bp : Nat) : Prop where
  prev : p ∈ F
  blocks : Blocks base s.regions t.ptr t.size F L
  tight : Tight t.ptr t.size F
  size_le : ∃ a ∈ F, s.size bp ≤ t.size a
  live : ∀ x, L x → t.size x = s.size x

theorem freed_setPtr {t : Heap} (h : Linked base s t F L p bp) (hlt : base < 0x100000000)
    (hno : p + 8 * t.size p ≠ bp) : Freed base s (t.setPtr p bp) F L p bp := by
  have hsep : ∀ a, Header F L a → Sep a p := fun a ha => h.blocks.sep ha (.inl h.prev)
  have hptr : ∀ a ∈ F, (t.setPtr p bp).ptr a = update t.ptr p bp a :=
    fun a ha => ptr_setPtr (hsep a (.inl ha)) (h.blocks.lt hlt (.inl h.mem))
  have hsize : ∀ a, Header F L a → (t.setPtr p bp).size a = t.size a := fun a ha => size_setPtr (hsep a ha)
  refine ⟨h.prev, h.blocks.congr hptr hsize, fun a ha hc => ?_, ⟨bp, h.mem, ?_⟩, fun x hx => ?_⟩
  · rw [Abuts, hptr a ha, hsize a (.inl ha)] at hc
    by_cases hap : a = p
    · rw [hap, update_self] at hc
      exact hno hc.2
    · exact h.tight a ha hap hc
  · rw [hsize bp (.inl h.mem)]
    exact h.size_le
  · rw [hsize x (.inr hx), h.live x hx]

theorem freed_join {t : Heap} (h : Linked base s t F L p bp) (hlt : base < 0x100000000) (hne : p ≠ bp)
    (hjoin : p + 8 * t.size p = bp) : Freed base s (joinPrev t p bp) (F.erase bp) L p bp := by
  obtain ⟨ptr, hdef⟩ : ∃ f, f = update t.ptr p bp := ⟨_, rfl⟩
  have hblocks := h.blocks
  have htight := h.tight
  rw [← hdef] at hblocks htight
  have hpp : ptr p = bp := by rw [hdef, update_self]
  have hbp : ptr bp = t.ptr bp := by rw [hdef, update_of_ne (Ne.symm hne)]
  have hsep : ∀ a, Header F L a → Sep a p := fun a ha => hblocks.sep ha (.inl h.prev)
  have hab : Abuts ptr t.size p := by
    rw [Abuts, hpp]
    exact ⟨by omega, hjoin⟩
  have hbase := hblocks.base_le (.inl h.prev)
  have hbound := hblocks.bounds (.inl h.mem) (by have := hab.1; omega)
  have hsum : t.size p + t.size bp < 0x100000000 := by omega
  have hcode : joinPrev t p bp = (t.setSize p (t.size p + t.size bp)).setPtr p (t.ptr bp) := by
    rw [joinPrev, if_pos ((hadd_of_lt (by omega)).trans hjoin)]
    dsimp only
    rw [ptr_setSize (hsep bp (.inl h.mem)), u32_of_lt hsum]
  have hnext : t.ptr bp < 0x100000000 := hbp ▸ hblocks.lt hlt (.inl (hblocks.circ.mem bp h.mem))
  have hj := hblocks.join h.prev hab
  have hcases := fun c => hblocks.abuts_join h.prev hab (c := c)
  rw [hpp, hbp] at hj
  have hsub : ∀ a, Header (F.erase bp) L a → Header F L a := fun a ha => ha.imp_left mem_of_mem_erase
  have hptr : ∀ a ∈ F.erase bp, (joinPrev t p bp).ptr a = update ptr p (t.ptr bp) a := by
    intro a ha
    have hs := hsep a (hsub a (.inl ha))
    rw [hcode, ptr_setPtr hs hnext]
    by_cases hap : a = p
    · rw [hap, update_self, update_self]
    · rw [update_of_ne hap, update_of_ne hap, ptr_setSize hs, hdef, update_of_ne hap]
  have hsize : ∀ a, Header (F.erase bp) L a →
      (joinPrev t p bp).size a = update t.size p (t.size p + t.size bp) a := by
    intro a ha
    rw [hcode, size_setPtr (hsep a (hsub a ha)), size_setSize (hsep a (hsub a ha)) hsum]
  have hprev : p ∈ F.erase bp := mem_erase.mpr ⟨hne, h.prev⟩
  refine ⟨hprev, hj.congr hptr hsize, fun a ha hc => ?_, ⟨p, hprev, ?_⟩, fun x hx => ?_⟩
  · rw [Abuts, hptr a ha, hsize a (.inl ha)] at hc
    have hcases := hblocks.abuts_join h.prev hab (c := a)
    rw [hpp, hbp] at hcases
    rcases hcases hc with ⟨-, hc⟩ | ⟨hap, hc⟩
    · exact htight bp h.mem (Ne.symm hne) hc
    · exact htight a (mem_of_mem_erase ha) hap hc
  · have := h.size_le
    rw [hsize p (.inl hprev), update_self]
    omega
  · have hxp : x ≠ p := fun heq => hblocks.not_live p h.prev (heq ▸ hx)
    rw [hsize x (.inr hx), update_of_ne hxp, h.live x hx]

theorem joinPrev_freed {t : Heap} (h : Linked base s t F L p bp) (hlt : base < 0x100000000) (hne : p ≠ bp) :
    ∃ F', Freed base s (joinPrev t p bp) F' L p bp := by
  by_cases hjoin : p + 8 * t.size p = bp
  · exact ⟨_, freed_join h hlt hne hjoin⟩
  · have hend : p + 8 * t.size p < 0x100000000 := by
      by_cases hbase : p = base
      · have := h.blocks.base_size
        rw [hbase, this]
        exact hlt
      · exact (h.blocks.bounds (.inl h.prev) hbase).2.2
    refine ⟨F, ?_⟩
    rw [joinPrev, hadd_of_lt hend, if_neg hjoin]
    exact freed_setPtr h hlt hjoin

theorem joinNext_regions (s : Heap) (p bp : Nat) : (joinNext s p bp).regions = s.regions := by
  unfold joinNext
  split <;> rfl

theorem joinPrev_regions (s : Heap) (p bp : Nat) : (joinPrev s p bp).regions = s.regions := by
  unfold joinPrev
  split <;> rfl

/-- A block that is apart from all the others can be freed. Afterwards there is a free block of its size. -/
theorem free_spec (h : Inv base s F L) (hb : Blocks.New s.regions s.size F L bp) :
    ∃ s' F', free s (bp + 8) = some s' ∧ Inv base s' F' L ∧ s'.regions = s.regions ∧
      (∃ a ∈ F', s.size bp ≤ s'.size a) ∧ ∀ x, L x → s'.size x = s.size x := by
  have hbounds := hb.covered.bounds hb.pos h.blocks.bounded
  have hpos := hb.pos
  have hbpF : bp ∉ F := fun hF => hb.not_header (.inl hF)
  obtain ⟨t, ht, hbt⟩ := h.blocks.circ.exists_between ⟨base, h.blocks.base_mem⟩ hbpF
  have hcard := h.card
  have hdist := dist_le_card F t s.freep
  obtain ⟨p, hp, hloop, hbt⟩ := freeLoop_finds h.blocks.circ ht hbt (k := fuel) h.freep
    (by unfold fuel; omega)
  obtain ⟨F1, h1⟩ := joinNext_linked h hb hp hbt
  obtain ⟨F2, h2⟩ := joinPrev_freed h1 h.lt fun heq => hbpF (heq ▸ hp)
  have hap : u32 (bp + 8 + 0x100000000 - 8) = bp := by
    rw [u32]
    omega
  have hreg : (joinPrev (joinNext s p bp) p bp).regions = s.regions :=
    (joinPrev_regions _ _ _).trans (joinNext_regions _ _ _)
  have hrun : free s (bp + 8) = some { joinPrev (joinNext s p bp) p bp with freep := p } := by
    rw [free]
    dsimp only
    rw [hap, hloop]
    rfl
  -- from here on only the fields of the new heap matter
  generalize joinPrev (joinNext s p bp) p bp = t at h2 hreg hrun
  refine ⟨{ t with freep := p }, F2, hrun, ⟨h.pos, h.lt, ?_, h2.tight, h2.prev⟩, hreg, h2.size_le, h2.live⟩
  change Blocks base t.regions t.ptr t.size F2 L
  rw [hreg]
  exact h2.blocks

/-! ## `malloc` -/

theorem Inv.ptr_ne_self (h : Inv base s F L) (hp : p ∈ F) (hne : s.ptr p ≠ base) : s.ptr p ≠ p := by
  intro heq
  have hmin := (h.blocks.circ.wrap p hp (Nat.le_of_eq heq) base h.blocks.base_mem).1
  have hle := h.blocks.base_le (.inl (h.blocks.circ.mem p hp))
  omega

/-- `malloc` has taken the block at `x`, of `n` units. -/
structure Taken (base : Nat) (s s' : Heap) (L : Nat → Prop) (n x : Nat) : Prop where
  inv : ∃ F, Inv base s' F fun y => y = x ∨ L y
  new : ¬ L x
  size : s'.size x = n
  live : ∀ y, L y → s'.size y = s.size y

theorem taken_whole (h : Inv base s F L) (hp : p ∈ F) (hne : s.ptr p ≠ base) :
    Taken base s { s.setPtr p (s.ptr (s.ptr p)) with freep := p } L (s.size (s.ptr p)) (s.ptr p) := by
  have hq := h.blocks.circ.mem p hp
  have hself := h.ptr_ne_self hp hne
  have hsep : ∀ a, Header F L a → Sep a p := fun a ha => h.blocks.sep ha (.inl hp)
  have hnext := h.blocks.lt h.lt (.inl (h.blocks.circ.mem _ hq))
  have hptr : ∀ a ∈ F.erase (s.ptr p), (s.setPtr p (s.ptr (s.ptr p))).ptr a =
      update s.ptr p (s.ptr (s.ptr p)) a :=
    fun a ha => ptr_setPtr (hsep a (.inl (mem_of_mem_erase ha))) hnext
  have hsize : ∀ a, Header F L a → (s.setPtr p (s.ptr (s.ptr p))).size a = s.size a :=
    fun a ha => size_setPtr (hsep a ha)
  have hsub : ∀ a, Header (F.erase (s.ptr p)) (fun y => y = s.ptr p ∨ L y) a → Header F L a := by
    rintro a (ha | rfl | ha)
    · exact .inl (mem_of_mem_erase ha)
    · exact .inl hq
    · exact .inr ha
  refine ⟨⟨F.erase (s.ptr p), h.pos, h.lt, ?_, ?_, mem_erase.mpr ⟨Ne.symm hself, hp⟩⟩,
    h.blocks.not_live _ hq, hsize _ (.inl hq), fun y hy => hsize y (.inr hy)⟩
  · exact (h.blocks.take hp hne hself).congr hptr fun a ha => hsize a (hsub a ha)
  · intro a ha hab
    change Abuts (s.setPtr p (s.ptr (s.ptr p))).ptr (s.setPtr p (s.ptr (s.ptr p))).size a at hab
    rw [Abuts, hptr a ha, hsize a (.inl (mem_of_mem_erase ha))] at hab
    exact h.blocks.tight_take h.tight hp hne a ha hab

theorem taken_split {q : Nat} (h : Inv base s F L) (hp : p ∈ F) (hq : q ∈ F) (hn : 0 < n) (hlt : n < s.size q) :
    Taken base s { (s.setSize q (s.size q - n)).setSize (q + 8 * (s.size q - n)) n with freep := p } L n
      (q + 8 * (s.size q - n)) := by
  have hsplit := h.blocks.split hq hn hlt
  have hqbase : q ≠ base := by
    rintro rfl
    have := h.blocks.base_size
    omega
  have hbound := h.blocks.bounds (.inl hq) hqbase
  obtain ⟨x, hx⟩ : ∃ x, x = q + 8 * (s.size q - n) := ⟨_, rfl⟩
  rw [← hx] at hsplit ⊢
  have hxH : Header F (fun y => y = x ∨ L y) x := .inr (.inl rfl)
  have hqH : Header F (fun y => y = x ∨ L y) q := .inl hq
  have hptr : ∀ a, Header F (fun y => y = x ∨ L y) a → ((s.setSize q (s.size q - n)).setSize x n).ptr a = s.ptr a :=
    fun a ha => by rw [ptr_setSize (hsplit.sep ha hxH), ptr_setSize (hsplit.sep ha hqH)]
  have hsize : ∀ a, Header F (fun y => y = x ∨ L y) a → ((s.setSize q (s.size q - n)).setSize x n).size a =
      update (update s.size q (s.size q - n)) x n a := by
    intro a ha
    rw [size_setSize (hsplit.sep ha hxH) (by omega)]
    by_cases hax : a = x
    · rw [hax, update_self, update_self]
    · rw [update_of_ne hax, update_of_ne hax, size_setSize (hsplit.sep ha hqH) (by omega)]
  have hnew : ¬ L x := by
    intro hL
    have := h.blocks.apart q x (.inl hq) (.inr hL) (by omega)
    have := (h.blocks.bounds (.inr hL) (h.blocks.live_ne_base hL)).1
    simp only [Apart] at *
    omega
  refine ⟨⟨F, h.pos, h.lt, ?_, ?_, hp⟩, hnew, ?_, fun y hy => ?_⟩
  · exact hsplit.congr (fun a ha => hptr a (.inl ha)) hsize
  · intro a ha hab
    change Abuts ((s.setSize q (s.size q - n)).setSize x n).ptr ((s.setSize q (s.size q - n)).setSize x n).size a at hab
    rw [Abuts, hptr a (.inl ha), hsize a (.inl ha), hx] at hab
    exact h.blocks.tight_split h.tight hq hn hlt a ha hab
  · exact (hsize x hxH).trans (update_self ..)
  · have hyx : y ≠ x := fun heq => hnew (heq ▸ hy)
    have hyq : y ≠ q := fun heq => h.blocks.not_live q hq (heq ▸ hy)
    refine (hsize y (.inr (.inr hy))).trans ?_
    rw [update_of_ne hyx, update_of_ne hyq]

theorem mallocLoop_fit {k prevp : Nat} {answers : List (Option Nat)} (h : n ≤ s.size p) :
    mallocLoop n (k + 1) answers s prevp p =
      if s.size p = n then some ({ s.setPtr prevp (s.ptr p) with freep := prevp }, hadd p 1)
      else
        let s := s.setSize p (u32 (s.size p + 0x100000000 - n))
        let p := hadd p (s.size p)
        some ({ s.setSize p n with freep := prevp }, hadd p 1) := by
  cases answers <;> rw [mallocLoop, if_pos h]

theorem mallocLoop_next {k prevp : Nat} {answers : List (Option Nat)} (h : ¬ n ≤ s.size p) (hf : p ≠ s.freep) :
    mallocLoop n (k + 1) answers s prevp p = mallocLoop n k answers s p (s.ptr p) := by
  cases answers <;> rw [mallocLoop, if_neg h, if_neg hf]

theorem mallocLoop_take {k : Nat} {answers : List (Option Nat)} (h : Inv base s F L) (hp : p ∈ F) (hn : 0 < n)
    (hfit : n ≤ s.size (s.ptr p)) :
    ∃ s' x, mallocLoop n (k + 1) answers s p (s.ptr p) = some (s', x + 8) ∧ Taken base s s' L n x := by
  have hq := h.blocks.circ.mem p hp
  have hne : s.ptr p ≠ base := by
    intro heq
    have := h.blocks.base_size
    rw [heq] at hfit
    omega
  have hbound := h.blocks.bounds (.inl hq) hne
  rw [mallocLoop_fit hfit]
  split
  · next heq =>
    have hadd1 : hadd (s.ptr p) 1 = s.ptr p + 8 := hadd_of_lt (by omega)
    exact ⟨_, s.ptr p, by rw [hadd1], heq ▸ taken_whole h hp hne⟩
  · next hlt =>
    have hsub : u32 (s.size (s.ptr p) + 0x100000000 - n) = s.size (s.ptr p) - n := by
      rw [u32]
      omega
    have hread : (s.setSize (s.ptr p) (s.size (s.ptr p) - n)).size (s.ptr p) = s.size (s.ptr p) - n := by
      rw [size_setSize (.inl rfl) (by omega), update_self]
    dsimp only
    rw [hsub, hread, hadd_of_lt (by omega), hadd_of_lt (by omega)]
    exact ⟨_, _, rfl, taken_split h hp hq hn (by omega)⟩

theorem mallocLoop_finds {t k : Nat} (answers : List (Option Nat)) (h : Inv base s F L) (ht : t ∈ F) (hn : 0 < n)
    (hfit : n ≤ s.size t) (hp : p ∈ F) (hd : dist F t (s.ptr p) ≤ dist F s.freep (s.ptr p))
    (hk : dist F t (s.ptr p) < k) :
    ∃ s' x, mallocLoop n k answers s p (s.ptr p) = some (s', x + 8) ∧ Taken base s s' L n x := by
  induction k generalizing p with
  | zero => omega
  | succ k ih =>
    by_cases hq : n ≤ s.size (s.ptr p)
    · exact mallocLoop_take h hp hn hq
    · have hqF := h.blocks.circ.mem p hp
      have hqt : s.ptr p ≠ t := fun heq => hq (heq ▸ hfit)
      have hstep := h.blocks.circ.dist_next hqF ht hqt
      have hfreep : s.ptr p ≠ s.freep := by
        intro heq
        rw [heq, Loop.dist_self] at hd
        rw [heq] at hstep
        omega
      have hstep' := h.blocks.circ.dist_next hqF h.freep hfreep
      rw [mallocLoop_next hq hfreep]
      exact ih hqF (by omega) (by omega)

theorem morecore_spec {nu : Nat} (h : Inv base s F L) (hbase : base + 8 ≤ a) (habove : ∀ r ∈ s.regions, r.1 + r.2 ≤ a)
    (hfits : a + 8 * max 4096 nu < 0x100000000) :
    ∃ s' F', morecore s nu (some a) = some (s', s'.freep) ∧ Inv base s' F' L ∧ (∃ t ∈ F', nu ≤ s'.size t) ∧
      ∀ x, L x → s'.size x = s.size x := by
  obtain ⟨nu', hnu'⟩ : ∃ m, m = max 4096 nu := ⟨_, rfl⟩
  rw [← hnu'] at hfits
  have hmax : (if nu < 4096 then 4096 else nu) = nu' := by
    rw [hnu', Nat.max_def]
    split <;> split <;> omega
  -- every block ends below the new region
  have hbelow : ∀ x, Header F L x → x + 8 * s.size x ≤ a ∧ x + 8 ≤ a := by
    intro x hx
    by_cases hxb : x = base
    · have := h.blocks.base_size
      rw [hxb, this]
      omega
    · obtain ⟨hpos, hcov⟩ := h.blocks.block x hx hxb
      obtain ⟨r, hr, -, hlast⟩ := hcov (x + 8 * s.size x - 1) (by omega) (by omega)
      have := habove r hr
      omega
  have hsep : ∀ x, Header F L x → Sep x a := fun x hx => .inr (.inr (hbelow x hx).2)
  obtain ⟨s1, hs1⟩ : ∃ t : Heap, t = Heap.setSize { s with regions := (a, 8 * nu') :: s.regions } a nu' := ⟨_, rfl⟩
  have hsize : ∀ x, Header F L x → s1.size x = s.size x := by
    intro x hx
    have hne : x ≠ a := by
      have := (hbelow x hx).2
      omega
    rw [hs1, size_setSize (hsep x hx) (by omega), update_of_ne hne]
    rfl
  have hself : s1.size a = nu' := by
    rw [hs1, size_setSize (.inl rfl) (by omega), update_self]
  have hptr : ∀ x ∈ F, s1.ptr x = s.ptr x := fun x hx => by
    rw [hs1]
    exact ptr_setSize (hsep x (.inl hx))
  have h1 : Inv base s1 F L := by
    refine ⟨h.pos, h.lt, ?_, fun x hx hab => ?_, ?_⟩
    · have hreg : s1.regions = (a, 8 * nu') :: s.regions := by rw [hs1]; rfl
      rw [hreg]
      exact (h.blocks.region ⟨hbase, hfits⟩).congr hptr hsize
    · rw [Abuts, hptr x hx, hsize x (.inl hx)] at hab
      exact h.tight x hx hab
    · have hfreep : s1.freep = s.freep := by rw [hs1]; rfl
      rw [hfreep]
      exact h.freep
  have hb : Blocks.New s1.regions s1.size F L a := by
    refine ⟨by omega, fun b hb hlt => ⟨(a, 8 * nu'), ?_, hb, by rw [hself] at hlt; exact hlt⟩, fun x hx => ?_⟩
    · rw [hs1]
      exact List.mem_cons_self
    · rw [Apart, hsize x hx]
      exact .inl (hbelow x hx).1
  obtain ⟨s', F', hfree, hinv, -, ⟨t, ht, hle⟩, hlive⟩ := free_spec h1 hb
  refine ⟨s', F', ?_, hinv, ⟨t, ht, by omega⟩, fun x hx => (hlive x hx).trans (hsize x (.inr hx))⟩
  have hbytes : u32 (nu' * 8) = 8 * nu' := by
    rw [u32]
    omega
  simp only [morecore, hmax, hbytes]
  rw [← hs1, hadd_of_lt (by omega), hfree]
  rfl

theorem mallocLoop_runs {k : Nat} (answer : Option Nat) (h : Inv base s F L) (hn : 0 < n)
    (hfresh : ∀ a ∈ answer, base + 8 ≤ a ∧ (∀ r ∈ s.regions, r.1 + r.2 ≤ a) ∧ a + 8 * max 4096 n < 0x100000000)
    (hp : p ∈ F) (hk : dist F s.freep (s.ptr p) + 0x100000001 < k) :
    ∃ s' r, mallocLoop n k [answer] s p (s.ptr p) = some (s', r) ∧
      (r = 0 ∧ (∃ F', Inv base s' F' L) ∧ (∀ x, L x → s'.size x = s.size x) ∨
        ∃ x, r = x + 8 ∧ Taken base s s' L n x) := by
  induction k generalizing p with
  | zero => omega
  | succ k ih =>
    by_cases hq : n ≤ s.size (s.ptr p)
    · obtain ⟨s', x, hrun, htaken⟩ := mallocLoop_take h hp hn hq
      exact ⟨s', x + 8, hrun, .inr ⟨x, rfl, htaken⟩⟩
    have hqF := h.blocks.circ.mem p hp
    by_cases hfreep : s.ptr p = s.freep
    · rw [mallocLoop, if_neg hq, if_pos hfreep]
      cases answer with
      | none => exact ⟨s, 0, rfl, .inl ⟨rfl, ⟨F, h⟩, fun _ _ => rfl⟩⟩
      | some a =>
        obtain ⟨hbase, habove, hfits⟩ := hfresh a rfl
        obtain ⟨s1, F1, hmore, h1, ⟨t, ht, hfit⟩, hlive⟩ := morecore_spec h hbase habove hfits
        have hne : s1.freep ≠ 0 := by
          have := h1.blocks.base_le (.inl h1.freep)
          have := h1.pos
          omega
        have hcard := h1.card
        have hdist := dist_le_card F1 t (s1.ptr s1.freep)
        obtain ⟨s', x, hrun, htaken⟩ := mallocLoop_finds (k := k) [] h1 ht hn hfit h1.freep
          (h1.blocks.circ.dist_le h1.freep ht) (by omega)
        refine ⟨s', x + 8, ?_, .inr ⟨x, rfl, htaken.inv, htaken.new, htaken.size, fun y hy => ?_⟩⟩
        · rw [hmore, Option.bind_some, if_neg hne]
          exact hrun
        · rw [htaken.live y hy, hlive y hy]
    · have hstep := h.blocks.circ.dist_next hqF h.freep hfreep
      rw [mallocLoop_next hq hfreep]
      exact ih hqF (by omega)

/-! ## Runs -/

variable {st st' : State}

/-- The block at `x` is in use. -/
def State.InUse (st : State) (x : Nat) : Prop := st.live (x + 8) ≠ none

/-- Nothing has been asked for yet, or the heap is in order and every block has the size that was asked for. -/
structure Good (base : Nat) (st : State) : Prop where
  heap : st.heap.freep = 0 ∧ st.heap.regions = [] ∧ (∀ p, st.live p = none) ∨
    st.heap.freep ≠ 0 ∧ ∃ F, Inv base st.heap F st.InUse
  size : ∀ p n, st.live p = some n → 8 ≤ p ∧ st.heap.size (p - 8) = (n + 7) / 8 + 1

theorem Inv.freep_ne (h : Inv base s F L) : s.freep ≠ 0 := by
  have := h.blocks.base_le (.inl h.freep)
  have := h.pos
  omega

theorem Good.inv (h : Good base st) (hl : st.live p ≠ none) : ∃ F, Inv base st.heap F st.InUse := by
  rcases h.heap with ⟨-, -, hnone⟩ | ⟨-, hinv⟩
  · exact absurd (hnone p) hl
  · exact hinv

theorem Inv.congr_live (h : Inv base s F L) (hL : ∀ x, L' x ↔ L x) : Inv base s F L' := by
  obtain rfl : L' = L := funext fun x => propext (hL x)
  exact h

theorem State.inUse_sub (h8 : 8 ≤ p) (hp : st.live p = some n) : st.InUse (p - 8) := by
  rw [State.InUse, Nat.sub_add_cancel h8, hp]
  exact Option.some_ne_none n

theorem Good.size_of (h : Good base st) (hsame : ∀ x, st.InUse x → s'.size x = st.heap.size x)
    (hp : st.live p = some n) : 8 ≤ p ∧ s'.size (p - 8) = (n + 7) / 8 + 1 := by
  obtain ⟨h8, hs⟩ := h.size p n hp
  exact ⟨h8, (hsame _ (State.inUse_sub h8 hp)).trans hs⟩

theorem units_eq (h : rounded n < 0x80000000) : units n = (n + 7) / 8 + 1 := by
  simp only [rounded] at h
  simp only [units, u32]
  omega

theorem inv_initFree (hpos : 0 < base) (hlt : base < 0x100000000) (hg : Good base st) :
    ∃ F, Inv base (initFree base st.heap) F st.InUse ∧ (initFree base st.heap).regions = st.heap.regions ∧
      ∀ x, st.InUse x → (initFree base st.heap).size x = st.heap.size x := by
  rcases hg.heap with ⟨hzero, hreg, hnone⟩ | ⟨hne, F, h⟩
  · have hlive : ∀ x, ¬ st.InUse x := fun x hx => hx (hnone _)
    refine ⟨{base}, ?_, by rw [initFree, if_pos hzero]; rfl, fun x hx => absurd hx (hlive x)⟩
    rw [initFree, if_pos hzero]
    have hptr : ((st.heap.setPtr base base).setSize base 0).ptr base = base := by
      rw [ptr_setSize (.inl rfl), ptr_setPtr (.inl rfl) hlt, update_self]
    have hsize : ((st.heap.setPtr base base).setSize base 0).size base = 0 := by
      rw [size_setSize (.inl rfl) (by decide), update_self]
    have hH : ∀ a, Header {base} st.InUse a → a = base := by
      rintro a (ha | ha)
      · exact mem_singleton.mp ha
      · exact absurd ha (hlive a)
    refine ⟨hpos, hlt, ⟨?_, circular_singleton base hptr, mem_singleton_self base, hsize,
      fun a _ => hlive a, fun a ha hne => absurd (hH a ha) hne, fun a b ha hb hne => ?_⟩, fun a ha hab => ?_,
      mem_singleton_self base⟩
    · change Bounded base st.heap.regions
      rw [hreg]
      exact fun r hr => absurd hr List.not_mem_nil
    · exact absurd ((hH a ha).trans (hH b hb).symm) hne
    · rw [mem_singleton.mp ha] at hab
      have : base < ((st.heap.setPtr base base).setSize base 0).ptr base := hab.1
      omega
  · rw [initFree, if_neg hne]
    exact ⟨F, h, rfl, fun _ _ => rfl⟩

theorem good_malloc {answer : Option Nat} (hpos : 0 < base) (hlt : base < 0x100000000) (hg : Good base st)
    (hok : Allowed base st (.malloc n answer)) :
    ∃ st', next base st (.malloc n answer) = some st' ∧ Good base st' := by
  obtain ⟨hsmall, hfresh⟩ := hok
  obtain ⟨F, h, hreg, hsame⟩ := inv_initFree hpos hlt hg
  have hunits := units_eq hsmall
  have hdist := dist_le_card F (initFree base st.heap).freep ((initFree base st.heap).ptr (initFree base st.heap).freep)
  have hcard := h.card
  obtain ⟨s', r, hrun, hout⟩ := mallocLoop_runs (k := fuel) (n := units n) answer h (by omega) (by
    intro a ha
    have hf := hfresh a ha
    refine ⟨hf.base, fun x hx => hf.above x (hreg ▸ hx), ?_⟩
    have := hf.fits
    simp only [rounded] at this
    omega) h.freep (by unfold fuel; omega)
  have hnext : next base st (.malloc n answer) =
      some { heap := s', live := if r = 0 then st.live else update st.live r (some n) } := by
    rw [next, malloc, hrun]
    rfl
  rw [hnext]
  rcases hout with ⟨rfl, ⟨F', h'⟩, hlive⟩ | ⟨x, rfl, ⟨F', h'⟩, hnew, hsize, hlive⟩
  · exact ⟨_, rfl, .inr ⟨h'.freep_ne, F', h'⟩, fun p k hp =>
      hg.size_of (fun x hx => (hlive x hx).trans (hsame x hx)) hp⟩
  · rw [if_neg (by omega)]
    refine ⟨_, rfl, .inr ⟨h'.freep_ne, F', h'.congr_live fun y => ?_⟩, fun p k hp => ?_⟩
    · by_cases hyx : y = x
      · simp [State.InUse, hyx]
      · simp [State.InUse, hyx]
    · change update st.live (x + 8) (some n) p = some k at hp
      by_cases hpx : p = x + 8
      · subst hpx
        rw [update_self] at hp
        obtain rfl := Option.some.inj hp
        rw [Nat.add_sub_cancel]
        exact ⟨by omega, hsize.trans hunits⟩
      · rw [update_of_ne hpx] at hp
        exact hg.size_of (fun x hx => (hlive x hx).trans (hsame x hx)) hp

theorem good_free {ap : Nat} (hg : Good base st) (hok : Allowed base st (.free ap)) :
    ∃ st', next base st (.free ap) = some st' ∧ Good base st' := by
  obtain ⟨n, hn⟩ := Option.ne_none_iff_exists'.mp hok
  obtain ⟨F, h⟩ := hg.inv hok
  obtain ⟨h8, hsize⟩ := hg.size ap n hn
  have huse := State.inUse_sub h8 hn
  obtain ⟨x, rfl⟩ : ∃ x, ap = x + 8 := ⟨ap - 8, by omega⟩
  rw [Nat.add_sub_cancel] at huse hsize
  -- the other blocks, from which the block at `x` is apart
  have hdrop : Inv base st.heap F fun y => y ≠ x ∧ st.InUse y :=
    ⟨h.pos, h.lt, h.blocks.drop fun y hy => hy.2, h.tight, h.freep⟩
  obtain ⟨hpos, hcov⟩ := h.blocks.block x (.inr huse) (h.blocks.live_ne_base huse)
  have hnew : Blocks.New st.heap.regions st.heap.size F (fun y => y ≠ x ∧ st.InUse y) x := by
    refine ⟨hpos, hcov, fun a ha => ?_⟩
    rcases ha with ha | ha
    · exact h.blocks.apart a x (.inl ha) (.inr huse) fun heq => h.blocks.not_live a ha (heq ▸ huse)
    · exact h.blocks.apart a x (.inr ha.2) (.inr huse) ha.1
  obtain ⟨s', F', hrun, h', -, -, hlive⟩ := free_spec hdrop hnew
  refine ⟨{ heap := s', live := update st.live (x + 8) none }, by rw [next, hrun]; rfl,
    .inr ⟨h'.freep_ne, F', h'.congr_live fun y => ?_⟩, fun p k hp => ?_⟩
  · by_cases hyx : y = x
    · simp [State.InUse, hyx]
    · simp [State.InUse, hyx]
  · change update st.live (x + 8) none p = some k at hp
    have hpx : p ≠ x + 8 := by
      rintro rfl
      rw [update_self] at hp
      cases hp
    rw [update_of_ne hpx] at hp
    obtain ⟨hp8, hs⟩ := hg.size p k hp
    exact ⟨hp8, (hlive _ ⟨by omega, State.inUse_sub hp8 hp⟩).trans hs⟩

theorem good_write {v : UInt8} (hg : Good base st) (hok : Allowed base st (.write a v)) :
    ∃ st', next base st (.write a v) = some st' ∧ Good base st' := by
  obtain ⟨p, n, hp, hlo, hhi⟩ := hok
  have hne : st.live p ≠ none := by rw [hp]; exact Option.some_ne_none n
  obtain ⟨F, h⟩ := hg.inv hne
  obtain ⟨h8, hsize⟩ := hg.size p n hp
  have huse := State.inUse_sub h8 hp
  -- the byte is in no header
  have hout : ∀ y, Header F st.InUse y → a < y ∨ y + 8 ≤ a := by
    intro y hy
    by_cases hyp : y = p - 8
    · omega
    by_cases hyb : y = base
    · have := h.blocks.bounds (.inr huse) (h.blocks.live_ne_base huse)
      omega
    · have hap := h.blocks.apart y (p - 8) hy (.inr huse) hyp
      have := (h.blocks.bounds hy hyb).1
      simp only [Apart, hsize] at hap
      omega
  have hptr : ∀ y, Header F st.InUse y → load (update st.heap.mem a v) y 4 = st.heap.ptr y :=
    fun y hy => load_update_of_out v (by have := hout y hy; omega)
  have hsz : ∀ y, Header F st.InUse y → load (update st.heap.mem a v) (y + 4) 4 = st.heap.size y :=
    fun y hy => load_update_of_out v (by have := hout y hy; omega)
  refine ⟨_, rfl, .inr ⟨h.freep_ne, F, h.pos, h.lt, h.blocks.congr (fun y hy => hptr y (.inl hy)) hsz, ?_, h.freep⟩,
    fun q k hq => hg.size_of (fun x hx => hsz x (.inr hx)) hq⟩
  intro y hy hab
  have h1 : y < load (update st.heap.mem a v) y 4 := hab.1
  have h2 : y + 8 * load (update st.heap.mem a v) (y + 4) 4 = load (update st.heap.mem a v) y 4 := hab.2
  rw [hptr y (.inl hy)] at h1 h2
  rw [hsz y (.inl hy)] at h2
  exact h.tight y hy ⟨h1, h2⟩

theorem good_next {act : Act} (hpos : 0 < base) (hlt : base < 0x100000000) (hg : Good base st)
    (hok : Allowed base st act) : ∃ st', next base st act = some st' ∧ Good base st' := by
  cases act with
  | malloc nbytes answer => exact good_malloc hpos hlt hg hok
  | free ap => exact good_free hg hok
  | write a v => exact good_write hg hok

theorem good_start (base : Nat) (mem : Mem) : Good base (start mem) :=
  ⟨.inl ⟨rfl, rfl, fun _ => rfl⟩, fun _ _ h => by cases h⟩

/-- Blocks in use have the room that was asked for, are inside the memory from `sbrk` and apart from each other
and from all free blocks. The free blocks, and `base`, form a circle in the order of their addresses, and none of
them ends where another one begins. -/
structure HeapOk (base : Nat) (st : State) : Prop where
  usable : ∀ p n, st.live p = some n → 8 ≤ p ∧ n + 8 ≤ 8 * st.heap.size (p - 8)
  inside : ∀ p, st.live p ≠ none → Covered st.heap.regions (p - 8) (8 * st.heap.size (p - 8))
  apart : ∀ p q, st.live p ≠ none → st.live q ≠ none → p ≠ q → Apart st.heap.size (p - 8) (q - 8)
  free : st.heap.freep ≠ 0 → ∃ F, base ∈ F ∧ st.heap.freep ∈ F ∧ Circular F st.heap.ptr ∧
    (∀ a ∈ F, ∀ b ∈ F, a < b → a + 8 * st.heap.size a < b) ∧
    ∀ a ∈ F, ∀ p, st.live p ≠ none → Apart st.heap.size (p - 8) a

theorem Inv.gap (h : Inv base s F L) (ha : a ∈ F) (hb : b ∈ F) (hab : a < b) : a + 8 * s.size a < b := by
  have hle := h.blocks.sorted (.inl ha) (.inl hb) hab
  refine Nat.lt_of_le_of_ne hle fun heq => h.tight a ha ?_
  -- the block after `a` is not beyond `b`, and it is not before the end of `a`
  have hup : a < s.ptr a := by
    by_contra hc
    have := (h.blocks.circ.wrap a ha (Nat.le_of_not_lt hc) b hb).2
    omega
  have h1 := (h.blocks.circ.up a ha hup b hb).resolve_left (by omega)
  have h2 := h.blocks.sorted (.inl ha) (.inl (h.blocks.circ.mem a ha)) hup
  exact ⟨hup, by omega⟩

theorem Good.ok (h : Good base st) : HeapOk base st where
  usable p n hp := by
    obtain ⟨h8, hs⟩ := h.size p n hp
    exact ⟨h8, by omega⟩
  inside p hp := by
    obtain ⟨F, hinv⟩ := h.inv hp
    obtain ⟨n, hn⟩ := Option.ne_none_iff_exists'.mp hp
    have huse := State.inUse_sub (h.size p n hn).1 hn
    exact (hinv.blocks.block _ (.inr huse) (hinv.blocks.live_ne_base huse)).2
  apart p q hp hq hne := by
    obtain ⟨F, hinv⟩ := h.inv hp
    obtain ⟨n, hn⟩ := Option.ne_none_iff_exists'.mp hp
    obtain ⟨k, hk⟩ := Option.ne_none_iff_exists'.mp hq
    have hp8 := (h.size p n hn).1
    have hq8 := (h.size q k hk).1
    exact hinv.blocks.apart _ _ (.inr (State.inUse_sub hp8 hn)) (.inr (State.inUse_sub hq8 hk)) (by omega)
  free hne := by
    obtain ⟨F, hinv⟩ : ∃ F, Inv base st.heap F st.InUse := by
      rcases h.heap with ⟨hz, -⟩ | ⟨-, hinv⟩
      · exact absurd hz hne
      · exact hinv
    refine ⟨F, hinv.blocks.base_mem, hinv.freep, hinv.blocks.circ, fun a ha b hb => hinv.gap ha hb, fun a ha p hp => ?_⟩
    obtain ⟨n, hn⟩ := Option.ne_none_iff_exists'.mp hp
    have huse := State.inUse_sub (h.size p n hn).1 hn
    exact hinv.blocks.apart _ _ (.inr huse) (.inl ha) fun heq => hinv.blocks.not_live a ha (heq ▸ huse)

/-- After any calls the heap is in order, and the next call comes back. -/
theorem heap_invariant {mem : Mem} {tr : List (State × Act)} (hpos : 0 < base) (hlt : base < 0x100000000)
    (hrun : Path (Next (next base)) (start mem) tr st) (hok : Meets (Allowed base) tr) :
    HeapOk base st ∧ ∀ act, Allowed base st act → ∃ st', next base st act = some st' := by
  have hgood : Good base st := (along_of_step (fun s a s' hg hok hn => by
    obtain ⟨s1, h1, hg1⟩ := good_next hpos hlt hg hok
    obtain rfl := Option.some.inj (h1.symm.trans hn)
    exact hg1) hrun (good_start base mem) hok).2
  refine ⟨hgood.ok, fun act hact => ?_⟩
  obtain ⟨st', h, -⟩ := good_next hpos hlt hgood hact
  exact ⟨st', h⟩

/-- The end of the first region is given out and comes back. -/
theorem heap_invariant_malloc_free :
    ∃ tr st, Path (Next (next 0x100)) (start fun _ => 0) tr st ∧
      tr.map Prod.snd = [.malloc 100 (some 0x1000), .free 0x8f98] ∧ HeapOk 0x100 st := by
  have hlive : ((next 0x100 (start fun _ => 0) (.malloc 100 (some 0x1000))).map fun s => s.live 0x8f98) =
      some (some 100) := by decide +kernel
  obtain ⟨s1, h1, hl⟩ := Option.map_eq_some_iff.mp hlive
  have hrun : Path (Next (next 0x100)) (start fun _ => 0) [(start fun _ => 0, .malloc 100 (some 0x1000))] s1 :=
    .snoc (.nil _) h1
  have hfirst : Allowed 0x100 (start fun _ => 0) (.malloc 100 (some 0x1000)) := by
    refine ⟨by decide, fun a ha => ?_⟩
    obtain rfl := Option.some.inj ha
    exact ⟨by decide, fun r hr => absurd hr List.not_mem_nil, by decide⟩
  have hok : Meets (Allowed 0x100) [(start fun _ => 0, .malloc 100 (some 0x1000))] := by
    intro x hx
    obtain rfl := List.mem_singleton.mp hx
    exact hfirst
  have hfree : Allowed 0x100 s1 (.free 0x8f98) := by
    rw [Allowed, hl]
    exact Option.some_ne_none 100
  obtain ⟨st, h2⟩ := (heap_invariant (by decide) (by decide) hrun hok).2 _ hfree
  refine ⟨_, st, .snoc hrun h2, rfl, (heap_invariant (by decide) (by decide) (.snoc hrun h2) ?_).1⟩
  exact (meets_snoc _ _ _ _).mpr ⟨hok, hfree⟩

end Xv6.Umalloc
