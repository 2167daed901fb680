import Xv6.Disk.Balloc

/-!
# Who owns a block

Every block that an inode refers to, directly, as its indirect block or in it, is a data block that is
marked in the bitmap and that no other place refers to. Giving a new block to an inode keeps that.
-/

open Xv6.Bytes Xv6.Cmd Function Finset

namespace Xv6.Disk

variable {cf : Conf} {s s' s1 s2 : State} {b c i j k l : Nat} {block block' : Nat → Block}
  {a : Fin (NDIRECT + 1) → Nat} {D D' : Nat → Dinode} {ip : Slot}

/-! ## References -/

/-- The number of places for a block in an inode: the direct blocks, the indirect block and its entries. -/
def NREF : Nat := NDIRECT + 1 + NINDIRECT

/-- The block at the place `k` of an inode with the addresses `a`, 0 if there is none. -/
def ref (block : Nat → Block) (a : Fin (NDIRECT + 1) → Nat) (k : Nat) : Nat :=
  if h : k < NDIRECT + 1 then a ⟨k, h⟩
  else if a indirect = 0 ∨ NREF ≤ k then 0
  else load (block (a indirect)) (4 * (k - (NDIRECT + 1))) 4

theorem ref_addrs (block : Nat → Block) (a : Fin (NDIRECT + 1) → Nat) (i : Fin (NDIRECT + 1)) :
    ref block a i.val = a i := dif_pos i.isLt

theorem ref_indirect (block : Nat → Block) (a : Fin (NDIRECT + 1) → Nat) : ref block a NDIRECT = a indirect :=
  ref_addrs block a indirect

theorem ref_entry (hk : NDIRECT < k) (hlt : k < NREF) (hind : a indirect ≠ 0) :
    ref block a k = load (block (a indirect)) (4 * (k - (NDIRECT + 1))) 4 := by
  rw [ref, dif_neg (by omega), if_neg (by omega)]

theorem ref_of_no_indirect (hk : NDIRECT < k) (hind : a indirect = 0) : ref block a k = 0 := by
  rw [ref, dif_neg (by omega), if_pos (.inl hind)]

theorem ref_of_le (hk : NREF ≤ k) : ref block a k = 0 := by
  have : NDIRECT + 1 ≤ NREF := by decide
  rw [ref, dif_neg (by omega), if_pos (.inr hk)]

theorem ref_congr (hb : a indirect ≠ 0 → block' (a indirect) = block (a indirect)) :
    ref block' a k = ref block a k := by
  unfold ref
  by_cases hind : a indirect = 0
  · simp only [hind, true_or, if_true]
  · rw [hb hind]

/-- Every reference of an inode below `cf.ninodes` that is in use. -/
structure Sound (cf : Conf) (block : Nat → Block) (D : Nat → Dinode) : Prop where
  data : ∀ i < cf.ninodes, (D i).type ≠ 0 → ∀ k, ref block (D i).addrs k ≠ 0 →
    cf.dataStart ≤ ref block (D i).addrs k ∧ ref block (D i).addrs k < cf.size ∧ Used cf block (ref block (D i).addrs k)
  inj : ∀ i < cf.ninodes, ∀ j < cf.ninodes, (D i).type ≠ 0 → (D j).type ≠ 0 → ∀ k l, ref block (D i).addrs k ≠ 0 →
    ref block (D i).addrs k = ref block (D j).addrs l → i = j ∧ k = l
  reserved : ∀ b < cf.dataStart, b < cf.size → Used cf block b

theorem Sound.congr (h : Sound cf block D) (ht : ∀ i < cf.ninodes, (D' i).type ≠ 0 → (D i).type ≠ 0)
    (hr : ∀ i < cf.ninodes, (D' i).type ≠ 0 → ∀ k, ref block' (D' i).addrs k = ref block (D i).addrs k)
    (hu : ∀ b < cf.size, Used cf block b → Used cf block' b) : Sound cf block' D' where
  data i hi hty k hk := by
    rw [hr i hi hty k] at hk ⊢
    obtain ⟨h1, h2, h3⟩ := h.data i hi (ht i hi hty) k hk
    exact ⟨h1, h2, hu _ h2 h3⟩
  inj i hi j hj hti htj k l hk heq := by
    rw [hr i hi hti k] at hk heq
    rw [hr j hj htj l] at heq
    exact h.inj i hi j hj (ht i hi hti) (ht j hj htj) k l hk heq
  reserved b hb hs := hu b hs (h.reserved b hb hs)

theorem Sound.free_ge (h : Sound cf block D) (hb : Free cf block b) : cf.dataStart ≤ b := by
  by_contra hc
  exact hb.2 (h.reserved b (by omega) hb.1)

theorem Sound.ref_ne_free (h : Sound cf block D) (hb : Free cf block b) (hi : i < cf.ninodes)
    (ht : (D i).type ≠ 0) (hk : ref block (D i).addrs k ≠ 0) : ref block (D i).addrs k ≠ b := by
  intro hc
  exact hb.2 (hc ▸ (h.data i hi ht k hk).2.2)

/-! ## The inode that is worked on -/

/-- The inodes on disk, with the one in slot `ip` as it is in memory. -/
def view (cf : Conf) (s : State) (ip : Slot) : Nat → Dinode :=
  Function.update (dinode cf s.block) (s.icache ip).inum (s.icache ip).toDinode

theorem view_self (cf : Conf) (s : State) (ip : Slot) : view cf s ip (s.icache ip).inum = (s.icache ip).toDinode := update_self _ _ _

theorem view_of_ne (cf : Conf) (h : i ≠ (s.icache ip).inum) : view cf s ip i = dinode cf s.block i := update_of_ne h _ _

theorem view_eq (h : dinode cf s.block (s.icache ip).inum = (s.icache ip).toDinode) :
    view cf s ip = dinode cf s.block := by
  rw [view, ← h, update_eq_self]

/-- The inode in slot `ip` is in use, and all blocks are owned once. -/
structure Open (cf : Conf) (s : State) (ip : Slot) : Prop where
  inum : (s.icache ip).inum < cf.ninodes
  type : (s.icache ip).type ≠ 0
  sound : Sound cf s.block (view cf s ip)

theorem Open.view_type (h : Open cf s ip) : (view cf s ip (s.icache ip).inum).type ≠ 0 := by
  rw [view_self]
  exact h.type

theorem Open.ref_data (h : Open cf s ip) (hk : ref s.block (s.icache ip).addrs k ≠ 0) :
    cf.dataStart ≤ ref s.block (s.icache ip).addrs k ∧ ref s.block (s.icache ip).addrs k < cf.size ∧
    Used cf s.block (ref s.block (s.icache ip).addrs k) := by
  have := h.sound.data _ h.inum h.view_type k
  rw [view_self] at this
  exact this hk

theorem Open.inj (h : Open cf s ip) (hk : ref s.block (s.icache ip).addrs k ≠ 0)
    (heq : ref s.block (s.icache ip).addrs k = ref s.block (s.icache ip).addrs l) : k = l := by
  have := h.sound.inj _ h.inum _ h.inum h.view_type h.view_type k l
  rw [view_self] at this
  exact (this hk heq).2

theorem Open.indirect_data (h : Open cf s ip) (hind : (s.icache ip).addrs indirect ≠ 0) :
    cf.dataStart ≤ (s.icache ip).addrs indirect ∧ (s.icache ip).addrs indirect < cf.size ∧
    Used cf s.block ((s.icache ip).addrs indirect) := by
  have := h.ref_data (k := NDIRECT)
  rw [ref_indirect] at this
  exact this hind

theorem Open.ref_ne (h : Open cf s ip) (hi : i < cf.ninodes) (hne : i ≠ (s.icache ip).inum)
    (ht : (dinode cf s.block i).type ≠ 0) (hk : ref s.block (s.icache ip).addrs k ≠ 0) :
    ref s.block (dinode cf s.block i).addrs l ≠ ref s.block (s.icache ip).addrs k := by
  intro hc
  have := h.sound.inj _ h.inum i hi h.view_type (by rwa [view_of_ne cf hne]) k l
  rw [view_self, view_of_ne cf hne] at this
  exact hne (this hk hc.symm).1.symm

/-! ## A new block -/

/-- A new block `b` for the place `k` of the inode in slot `ip`. -/
def State.give (cf : Conf) (s : State) (ip : Slot) (k b : Nat) : State :=
  if h : k < NDIRECT + 1 then
    (s.alloc cf b).setInode ip { s.icache ip with addrs := Function.update (s.icache ip).addrs ⟨k, h⟩ b }
  else
    (s.alloc cf b).log ((s.icache ip).addrs indirect)
      (store (s.block ((s.icache ip).addrs indirect)) (4 * (k - (NDIRECT + 1))) b 4)

/-- The place `k` can get a block. -/
structure Vacant (s : State) (ip : Slot) (k : Nat) : Prop where
  lt : k < NREF
  empty : ref s.block (s.icache ip).addrs k = 0
  indirect : NDIRECT < k → (s.icache ip).addrs indirect ≠ 0

@[simp] theorem give_bufs : (s.give cf ip k b).bufs = s.bufs := by unfold State.give; split <;> rfl
@[simp] theorem give_file : (s.give cf ip k b).file = s.file := by unfold State.give; split <;> rfl
@[simp] theorem give_proc : (s.give cf ip k b).proc = s.proc := by unfold State.give; split <;> rfl
@[simp] theorem give_outstanding : (s.give cf ip k b).outstanding = s.outstanding := by unfold State.give; split <;> rfl

theorem give_icache_of_ne {q : Slot} (h : q ≠ ip) : (s.give cf ip k b).icache q = s.icache q := by
  unfold State.give
  split
  · exact update_of_ne h _ _
  · rfl

theorem give_inode : (s.give cf ip k b).icache ip =
    { s.icache ip with addrs := ((s.give cf ip k b).icache ip).addrs } := by
  unfold State.give
  split
  · simp [State.setInode]
  · rfl

theorem give_block_of_ne (h1 : c ≠ b) (h2 : c ≠ cf.bblock b)
    (h3 : NDIRECT < k → c ≠ (s.icache ip).addrs indirect) : (s.give cf ip k b).block c = s.block c := by
  unfold State.give
  split
  · exact alloc_block_of_ne h1 h2
  · next h =>
    change update (s.alloc cf b).block _ _ c = _
    rw [update_of_ne (h3 (by omega)), alloc_block_of_ne h1 h2]

section Give

variable (hl : cf.Layout) (h : Open cf s ip) (hb : Free cf s.block b) (hv : Vacant s ip k)

include hl h hb hv

theorem give_used (hc : c < cf.size) : Used cf (s.give cf ip k b).block c ↔ c = b ∨ Used cf s.block c := by
  have hge := h.sound.free_ge hb
  unfold State.give
  split
  · exact used_alloc hl hge hc
  · next hk =>
    have hind := h.indirect_data (hv.indirect (by omega))
    have hmap := hl.bitmap c hc
    change Used cf (update (s.alloc cf b).block _ _) c ↔ _
    rw [used_update (by omega), used_alloc hl hge hc]

theorem give_dinode (hi : i < cf.ninodes) : dinode cf (s.give cf ip k b).block i = dinode cf s.block i := by
  have hge := h.sound.free_ge hb
  unfold State.give
  split
  · exact dinode_alloc hl hge hb.1 hi
  · next hk =>
    have hind := h.indirect_data (hv.indirect (by omega))
    have hmap := hl.iblock_lt hi hb.1
    change dinode cf (update (s.alloc cf b).block _ _) i = _
    rw [dinode_update_of_ne (by omega), dinode_alloc hl hge hb.1 hi]

theorem give_ref (l : Nat) : ref (s.give cf ip k b).block ((s.give cf ip k b).icache ip).addrs l =
    if l = k then b else ref s.block (s.icache ip).addrs l := by
  have hge := h.sound.free_ge hb
  have hmap := hl.bitmap b hb.1
  -- The indirect block is neither the new block nor part of the bitmap.
  have hind : (s.icache ip).addrs indirect ≠ 0 →
      (s.icache ip).addrs indirect ≠ b ∧ (s.icache ip).addrs indirect ≠ cf.bblock b := by
    intro h0
    have h1 := h.indirect_data h0
    exact ⟨fun hc => hb.2 (hc ▸ h1.2.2), by omega⟩
  unfold State.give
  split
  · next hk =>
    simp only [State.setInode, update_self]
    by_cases hl13 : l < NDIRECT + 1
    · rw [ref, dif_pos hl13, ref, dif_pos hl13]
      by_cases hlk : l = k
      · subst hlk
        rw [if_pos rfl, update_self]
      · rw [if_neg hlk, update_of_ne fun hc => hlk (Fin.mk.inj hc)]
    · rw [if_neg (by omega)]
      by_cases hkind : (⟨k, hk⟩ : Fin (NDIRECT + 1)) = indirect
      · -- The new indirect block is empty.
        have hk12 : k = NDIRECT := Fin.mk.inj hkind
        have hzero : (s.icache ip).addrs indirect = 0 := by
          have := hv.empty
          rwa [hk12, ref_indirect] at this
        rw [ref_of_no_indirect (by omega) hzero, ref, dif_neg hl13, hkind, update_self]
        split
        · rfl
        · change load ((s.alloc cf b).block b) _ 4 = 0
          rw [alloc_block_self]
          rfl
      · have haddr : update (s.icache ip).addrs ⟨k, hk⟩ b indirect = (s.icache ip).addrs indirect :=
          update_of_ne (Ne.symm hkind) _ _
        unfold ref
        rw [dif_neg hl13, dif_neg hl13, haddr]
        by_cases h0 : (s.icache ip).addrs indirect = 0
        · rw [if_pos (.inl h0), if_pos (.inl h0)]
        · change (if _ then 0 else load ((s.alloc cf b).block _) _ 4) = _
          rw [alloc_block_of_ne (hind h0).1 (hind h0).2]
  · next hk =>
    have h0 := hv.indirect (by omega)
    have hblk : ((s.alloc cf b).log ((s.icache ip).addrs indirect)
        (store (s.block ((s.icache ip).addrs indirect)) (4 * (k - (NDIRECT + 1))) b 4)).block
        ((s.icache ip).addrs indirect) =
        store (s.block ((s.icache ip).addrs indirect)) (4 * (k - (NDIRECT + 1))) b 4 := update_self _ _ _
    change ref _ (s.icache ip).addrs l = _
    by_cases hlk : l = k
    · have := hl.size_le
      have := hb.1
      rw [if_pos hlk, hlk, ref_entry (by omega) hv.lt h0, hblk, load_store]
      exact Nat.mod_eq_of_lt (by omega)
    · rw [if_neg hlk]
      by_cases hl13 : l < NDIRECT + 1
      · rw [ref, dif_pos hl13, ref, dif_pos hl13]
      · by_cases hlr : NREF ≤ l
        · rw [ref_of_le hlr, ref_of_le hlr]
        · rw [ref_entry (by omega) (by omega) h0, ref_entry (by omega) (by omega) h0, hblk,
            load_store_of_out (by omega)]

theorem give_ref_other (hi : i < cf.ninodes) (hne : i ≠ (s.icache ip).inum)
    (ht : (dinode cf s.block i).type ≠ 0) (l : Nat) :
    ref (s.give cf ip k b).block (dinode cf (s.give cf ip k b).block i).addrs l = ref s.block (dinode cf s.block i).addrs l := by
  rw [give_dinode hl h hb hv hi]
  refine ref_congr fun h0 => give_block_of_ne ?_ ?_ fun hk => ?_
  · have := h.sound.ref_ne_free hb hi (by rwa [view_of_ne cf hne]) (k := NDIRECT)
    rw [view_of_ne cf hne, ref_indirect] at this
    exact this h0
  · have hmap := hl.bitmap b hb.1
    have := h.sound.data i hi (by rwa [view_of_ne cf hne]) NDIRECT
    rw [view_of_ne cf hne, ref_indirect] at this
    have := this h0
    omega
  · have := h.ref_ne (k := NDIRECT) (l := NDIRECT) hi hne ht (by rw [ref_indirect]; exact hv.indirect hk)
    rwa [ref_indirect, ref_indirect] at this

theorem give_open : Open cf (s.give cf ip k b) ip := by
  have hge := h.sound.free_ge hb
  have hinum : ((s.give cf ip k b).icache ip).inum = (s.icache ip).inum := by rw [give_inode]
  have htype : ((s.give cf ip k b).icache ip).type = (s.icache ip).type := by rw [give_inode]
  refine ⟨by rw [hinum]; exact h.inum, by rw [htype]; exact h.type, ?_⟩
  -- Where the view refers to the new block, and where it refers to what it did.
  have hview : ∀ i < cf.ninodes, (view cf (s.give cf ip k b) ip i).type ≠ 0 → (view cf s ip i).type ≠ 0 ∧
      ∀ l, ref (s.give cf ip k b).block (view cf (s.give cf ip k b) ip i).addrs l =
        if i = (s.icache ip).inum ∧ l = k then b else ref s.block (view cf s ip i).addrs l := by
    intro i hi ht
    by_cases hne : i = (s.icache ip).inum
    · subst hne
      have hself := view_self cf (s.give cf ip k b) ip
      rw [hinum] at hself
      rw [hself, view_self]
      refine ⟨h.type, fun l => ?_⟩
      rw [give_ref hl h hb hv]
      simp only [true_and]
    · have hother : view cf (s.give cf ip k b) ip i = dinode cf (s.give cf ip k b).block i :=
        view_of_ne cf (by rwa [hinum])
      rw [hother, give_dinode hl h hb hv hi] at ht
      rw [view_of_ne cf hne]
      refine ⟨ht, fun l => ?_⟩
      rw [hother, give_ref_other hl h hb hv hi hne ht, if_neg fun hc => hne hc.1]
  have hused : ∀ c < cf.size, Used cf s.block c → Used cf (s.give cf ip k b).block c :=
    fun c hc hu => (give_used hl h hb hv hc).mpr (.inr hu)
  refine ⟨fun i hi ht l hne => ?_, fun i hi j hj hti htj l m hne heq => ?_, fun c hc hs => hused c hs (h.sound.reserved c hc hs)⟩
  · obtain ⟨ht0, hr⟩ := hview i hi ht
    rw [hr] at hne ⊢
    split
    · exact ⟨hge, hb.1, (give_used hl h hb hv hb.1).mpr (.inl rfl)⟩
    · next hc =>
      rw [if_neg hc] at hne
      obtain ⟨h1, h2, h3⟩ := h.sound.data i hi ht0 l hne
      exact ⟨h1, h2, hused _ h2 h3⟩
  · obtain ⟨hti0, hri⟩ := hview i hi hti
    obtain ⟨htj0, hrj⟩ := hview j hj htj
    rw [hri] at hne heq
    rw [hrj] at heq
    by_cases hc : i = (s.icache ip).inum ∧ l = k
    · by_cases hc' : j = (s.icache ip).inum ∧ m = k
      · exact ⟨hc.1.trans hc'.1.symm, hc.2.trans hc'.2.symm⟩
      · rw [if_pos hc, if_neg hc'] at heq
        rw [if_pos hc] at hne
        exact absurd heq.symm (h.sound.ref_ne_free hb hj htj0 (heq ▸ hne))
    · rw [if_neg hc] at hne heq
      by_cases hc' : j = (s.icache ip).inum ∧ m = k
      · rw [if_pos hc'] at heq
        exact absurd heq (h.sound.ref_ne_free hb hi hti0 hne)
      · rw [if_neg hc'] at heq
        exact h.sound.inj i hi j hj hti0 htj0 l m hne heq

end Give

/-! ## Counting -/

/-- The blocks that can be allocated. -/
def freeSet (cf : Conf) (block : Nat → Block) : Finset Nat := (Finset.range cf.size).filter fun b => ¬ Used cf block b

theorem mem_freeSet : b ∈ freeSet cf block ↔ Free cf block b := by
  simp [freeSet, Free]

/-- The places of the inode that hold a block. -/
def refSet (block : Nat → Block) (a : Fin (NDIRECT + 1) → Nat) : Finset Nat :=
  (Finset.range NREF).filter fun k => ref block a k ≠ 0

theorem mem_refSet : k ∈ refSet block a ↔ ref block a k ≠ 0 := by
  simp only [refSet, mem_filter, mem_range, and_iff_right_iff_imp]
  intro h
  by_contra hc
  exact h (ref_of_le (by omega))

section Give

variable (hl : cf.Layout) (h : Open cf s ip) (hb : Free cf s.block b) (hv : Vacant s ip k)

include hl h hb hv

theorem give_freeSet : freeSet cf (s.give cf ip k b).block = (freeSet cf s.block).erase b := by
  ext c
  simp only [mem_erase, freeSet, mem_filter, mem_range]
  constructor
  · rintro ⟨hc, hu⟩
    rw [give_used hl h hb hv hc, not_or] at hu
    exact ⟨hu.1, hc, hu.2⟩
  · rintro ⟨hne, hc, hu⟩
    refine ⟨hc, ?_⟩
    rw [give_used hl h hb hv hc, not_or]
    exact ⟨hne, hu⟩

theorem give_refSet : refSet (s.give cf ip k b).block ((s.give cf ip k b).icache ip).addrs =
    insert k (refSet s.block (s.icache ip).addrs) := by
  have hpos : b ≠ 0 := by
    have := hl.bitmap b hb.1
    have := h.sound.free_ge hb
    omega
  ext l
  rw [mem_refSet, mem_insert, mem_refSet, give_ref hl h hb hv]
  by_cases hlk : l = k
  · simp [hlk, hpos]
  · simp [hlk]

theorem give_total : (freeSet cf (s.give cf ip k b).block).card +
      (refSet (s.give cf ip k b).block ((s.give cf ip k b).icache ip).addrs).card =
    (freeSet cf s.block).card + (refSet s.block (s.icache ip).addrs).card := by
  have hnot : k ∉ refSet s.block (s.icache ip).addrs := by
    rw [mem_refSet, not_not]
    exact hv.empty
  have hmem : b ∈ freeSet cf s.block := mem_freeSet.mpr hb
  have hpos := card_pos.mpr ⟨b, hmem⟩
  rw [give_freeSet hl h hb hv, give_refSet hl h hb hv, card_erase_of_mem hmem,
    card_insert_of_notMem hnot]
  omega

end Give

end Xv6.Disk
