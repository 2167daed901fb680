import Xv6.Disk.Owner

/-!
# The contents of an inode

`bmap`, `readi` and `writei`. The blocks of an inode, put together, are an array of bytes.
-/

open Xv6.Bytes Xv6.Cmd Finset

namespace Xv6.Disk

variable {cf : Conf} {s s' s1 s2 : State} {b c i j k l bn off : Nat} {block block' : Nat → Block}
  {a : Fin (NDIRECT + 1) → Nat} {ip : Slot} {N : Finset Nat} {src : List UInt8} {E : Stop → Prop}

/-! ## Blocks of a file -/

/-- The place of the block `bn`. The indirect block comes after the direct ones. -/
def pos (bn : Nat) : Nat := if bn < NDIRECT then bn else bn + 1

theorem pos_inj (h : pos bn = pos k) : bn = k := by
  unfold pos at h
  split at h <;> split at h <;> omega

theorem pos_ne_indirect (bn : Nat) : pos bn ≠ NDIRECT := by
  unfold pos
  split <;> omega

/-- The byte `j` of the contents. A block that is not there holds zeroes. -/
def byteAt (block : Nat → Block) (a : Fin (NDIRECT + 1) → Nat) (j : Nat) : UInt8 :=
  if ref block a (pos (j / BSIZE)) = 0 then 0 else block (ref block a (pos (j / BSIZE))) (j % BSIZE)

/-- The bytes of a file. -/
def contents (block : Nat → Block) (d : Dinode) : List UInt8 := (List.range d.size).map (byteAt block d.addrs)

@[simp] theorem length_contents (block : Nat → Block) (d : Dinode) : (contents block d).length = d.size := by
  simp [contents]

theorem contents_congr {d : Dinode} (hr : ∀ k, ref block' d.addrs k = ref block d.addrs k)
    (hb : ∀ k, ref block d.addrs k ≠ 0 → block' (ref block d.addrs k) = block (ref block d.addrs k)) :
    contents block' d = contents block d := by
  refine List.map_congr_left fun j _ => ?_
  unfold byteAt
  rw [hr]
  split
  · rfl
  · next h => rw [hb _ h]

/-- Every block below the size is there. -/
def Full (block : Nat → Block) (d : Dinode) : Prop :=
  ∀ bn, bn * BSIZE < d.size → ref block d.addrs (pos bn) ≠ 0

theorem lt_of_mapped (h : ref block a (pos bn) ≠ 0) : bn < MAXFILE := by
  by_contra hc
  refine h (ref_of_le ?_)
  simp only [pos, NREF, MAXFILE] at *
  split <;> omega

theorem Full.size_le {d : Dinode} (h : Full block d) : d.size ≤ MAXFILE * BSIZE := by
  by_contra hc
  exact Nat.lt_irrefl _ (lt_of_mapped (h MAXFILE (by omega)))

theorem Full.mapped {d : Dinode} (h : Full block d) (hj : j < d.size) : ref block d.addrs (pos (j / BSIZE)) ≠ 0 :=
  h _ (Nat.lt_of_le_of_lt (Nat.div_mul_le_self j BSIZE) hj)

theorem indirect_of_mapped (hbn : NDIRECT ≤ bn) (h : ref block a (pos bn) ≠ 0) : a indirect ≠ 0 := by
  intro hc
  refine h (ref_of_no_indirect ?_ hc)
  rw [pos, if_neg (by omega)]
  omega

/-! ## What an operation on one inode leaves alone -/

def Dinode.withAddrs (d : Dinode) (a : Fin (NDIRECT + 1) → Nat) : Dinode := { d with addrs := a }

def Dinode.withSize (d : Dinode) (n : Nat) : Dinode := { d with size := n }

def Inode.put (x : Inode) (d : Dinode) : Inode := { x with toDinode := d }

section Put

variable (x : Inode) (d d' : Dinode)

@[simp] theorem Inode.put_toDinode : (x.put d).toDinode = d := rfl
@[simp] theorem Inode.put_inum : (x.put d).inum = x.inum := rfl
@[simp] theorem Inode.put_ref : (x.put d).ref = x.ref := rfl
@[simp] theorem Inode.put_put : (x.put d).put d' = x.put d' := rfl

end Put

/-- From `s` to `s'`, only the inode in slot `ip` and its blocks have changed. It has kept its blocks, and
may have got free ones at the places `N`. -/
structure Rest (cf : Conf) (ip : Slot) (N : Finset Nat) (s s' : State) : Prop where
  opened : Open cf s' ip
  bufs : s'.bufs = s.bufs
  file : s'.file = s.file
  proc : s'.proc = s.proc
  outstanding : s'.outstanding = s.outstanding
  icache : ∀ i, i ≠ ip → s'.icache i = s.icache i
  cell : s'.icache ip = (s.icache ip).put (s'.icache ip).toDinode
  disk : ∀ i < cf.ninodes, i ≠ (s.icache ip).inum → dinode cf s'.block i = dinode cf s.block i
  keep : ∀ k, ref s.block (s.icache ip).addrs k ≠ 0 →
    ref s'.block (s'.icache ip).addrs k = ref s.block (s.icache ip).addrs k
  only : ∀ k, k ∉ N → ref s'.block (s'.icache ip).addrs k = ref s.block (s.icache ip).addrs k
  fresh : ∀ k, ref s.block (s.icache ip).addrs k = 0 → ref s'.block (s'.icache ip).addrs k ≠ 0 →
    Free cf s.block (ref s'.block (s'.icache ip).addrs k)
  others : ∀ b, cf.dataStart ≤ b → b < cf.size → Used cf s.block b →
    (∀ k, ref s.block (s.icache ip).addrs k ≠ b) → s'.block b = s.block b
  used : ∀ b < cf.size, Used cf s.block b → Used cf s'.block b
  total : (freeSet cf s'.block).card + (refSet s'.block (s'.icache ip).addrs).card =
    (freeSet cf s.block).card + (refSet s.block (s.icache ip).addrs).card

theorem Rest.refl (h : Open cf s ip) : Rest cf ip N s s where
  opened := h
  bufs := rfl
  file := rfl
  proc := rfl
  outstanding := rfl
  icache _ _ := rfl
  cell := rfl
  disk _ _ _ := rfl
  keep _ _ := rfl
  only _ _ := rfl
  fresh _ h1 h2 := absurd h1 h2
  others _ _ _ _ _ := rfl
  used _ _ hu := hu
  total := rfl

theorem Rest.inum (h : Rest cf ip N s s') : (s'.icache ip).inum = (s.icache ip).inum := by
  rw [h.cell, Inode.put_inum]

theorem Rest.trans (hl : cf.Layout) (h : Rest cf ip N s s1) (h' : Rest cf ip N s1 s2) : Rest cf ip N s s2 where
  opened := h'.opened
  bufs := h'.bufs.trans h.bufs
  file := h'.file.trans h.file
  proc := h'.proc.trans h.proc
  outstanding := h'.outstanding.trans h.outstanding
  icache i hi := (h'.icache i hi).trans (h.icache i hi)
  cell := by rw [h'.cell, h.cell, Inode.put_put, Inode.put_toDinode]
  disk i hi hne := (h'.disk i hi (by rwa [h.inum])).trans (h.disk i hi hne)
  keep k hk := by rw [h'.keep k (by rwa [h.keep k hk]), h.keep k hk]
  only k hk := (h'.only k hk).trans (h.only k hk)
  fresh k h0 h2 := by
    by_cases h1 : ref s1.block (s1.icache ip).addrs k = 0
    · obtain ⟨hlt, hu⟩ := h'.fresh k h1 h2
      exact ⟨hlt, fun hc => hu (h.used _ hlt hc)⟩
    · rw [h'.keep k h1]
      exact h.fresh k h0 h1
  others b hb hlt hu hnot := by
    rw [h'.others b hb hlt (h.used b hlt hu), h.others b hb hlt hu hnot]
    intro k hk
    by_cases h0 : ref s.block (s.icache ip).addrs k = 0
    · have hmap := hl.bitmap b hlt
      exact (h.fresh k h0 (by omega)).2 (hk ▸ hu)
    · exact hnot k (h.keep k h0 ▸ hk)
  used b hb hu := h'.used b hb (h.used b hb hu)
  total := h'.total.trans h.total

section Other

variable (h : Rest cf ip N s s') (ho : Open cf s ip) (hi : i < cf.ninodes) (hne : i ≠ (s.icache ip).inum)
  (ht : (dinode cf s.block i).type ≠ 0)

include h ho hi hne ht

theorem Rest.other_block (hk : ref s.block (dinode cf s.block i).addrs k ≠ 0) :
    s'.block (ref s.block (dinode cf s.block i).addrs k) = s.block (ref s.block (dinode cf s.block i).addrs k) := by
  have hd := ho.sound.data i hi (by rwa [view_of_ne cf hne]) k
  rw [view_of_ne cf hne] at hd
  obtain ⟨h1, h2, h3⟩ := hd hk
  refine h.others _ h1 h2 h3 fun l hl => ?_
  exact ho.ref_ne (k := l) (l := k) hi hne ht (by rwa [hl]) hl.symm

theorem Rest.other_ref (k : Nat) :
    ref s'.block (dinode cf s'.block i).addrs k = ref s.block (dinode cf s.block i).addrs k := by
  rw [h.disk i hi hne]
  refine ref_congr fun hind => ?_
  have := h.other_block ho hi hne ht (k := NDIRECT)
  rw [ref_indirect] at this
  exact this hind

theorem Rest.other_contents : contents s'.block (dinode cf s'.block i) = contents s.block (dinode cf s.block i) := by
  have hr := h.other_ref ho hi hne ht
  rw [h.disk i hi hne] at hr ⊢
  exact contents_congr hr fun k hk => h.other_block ho hi hne ht hk

end Other

/-- Free blocks are enough for the places `N` that are empty. -/
def Room (cf : Conf) (N : Finset Nat) (s : State) (ip : Slot) : Prop :=
  (N \ refSet s.block (s.icache ip).addrs).card ≤ (freeSet cf s.block).card

theorem Rest.room (h : Rest cf ip N s s') (hr : Room cf N s ip) : Room cf N s' ip := by
  obtain ⟨R, hR⟩ : ∃ R, R = refSet s.block (s.icache ip).addrs := ⟨_, rfl⟩
  obtain ⟨T, hT⟩ : ∃ T, T = refSet s'.block (s'.icache ip).addrs := ⟨_, rfl⟩
  have htotal := h.total
  rw [Room, ← hR] at hr
  rw [← hR, ← hT] at htotal
  rw [Room, ← hT]
  have hsub : R ⊆ T := by
    intro k hk
    rw [hR, mem_refSet] at hk
    rw [hT, mem_refSet, h.keep k hk]
    exact hk
  have hnew : T \ R ⊆ N := by
    intro k hk
    by_contra hc
    rw [mem_sdiff, hR, hT, mem_refSet, mem_refSet, h.only k hc] at hk
    exact hk.2 hk.1
  have h1 : (N \ T).card + (T \ R).card = (N \ R).card := by
    rw [← card_union_of_disjoint]
    · congr 1
      ext k
      have := @hsub k
      have := @hnew k
      simp only [mem_union, mem_sdiff] at *
      tauto
    · rw [disjoint_left]
      intro k hk hk'
      exact (mem_sdiff.mp hk).2 (mem_sdiff.mp hk').1
  have h2 := card_sdiff_add_card_eq_card hsub
  omega

/-- The inode has changed in its addresses only, and that is not on disk yet. -/
structure Frame (cf : Conf) (ip : Slot) (N : Finset Nat) (s s' : State) : Prop extends Rest cf ip N s s' where
  inode : (s'.icache ip).toDinode = (s.icache ip).toDinode.withAddrs (s'.icache ip).addrs
  ondisk : dinode cf s'.block (s.icache ip).inum = dinode cf s.block (s.icache ip).inum

theorem Frame.refl (h : Open cf s ip) : Frame cf ip N s s := ⟨.refl h, rfl, rfl⟩

theorem Frame.trans (hl : cf.Layout) (h : Frame cf ip N s s1) (h' : Frame cf ip N s1 s2) : Frame cf ip N s s2 where
  toRest := h.toRest.trans hl h'.toRest
  inode := by
    rw [h'.inode, h.inode]
    rfl
  ondisk := by
    have := h'.ondisk
    rw [h.inum] at this
    exact this.trans h.ondisk

/-! ## `bmap` -/

/-- Blocks were allocated, and the contents are the same. -/
structure Grown (cf : Conf) (ip : Slot) (N : Finset Nat) (s s' : State) : Prop extends Frame cf ip N s s' where
  own : ∀ k, k ≠ NDIRECT → ref s.block (s.icache ip).addrs k ≠ 0 →
    s'.block (ref s.block (s.icache ip).addrs k) = s.block (ref s.block (s.icache ip).addrs k)

theorem Grown.refl (h : Open cf s ip) : Grown cf ip N s s := ⟨.refl h, fun _ _ _ => rfl⟩

theorem Grown.trans (hl : cf.Layout) (h : Grown cf ip N s s1) (h' : Grown cf ip N s1 s2) : Grown cf ip N s s2 :=
  ⟨h.toFrame.trans hl h'.toFrame, fun k hk h0 => by
    have h1 := h'.own k hk (by rwa [h.keep k h0])
    rw [h.keep k h0] at h1
    rw [h1, h.own k hk h0]⟩

theorem give_cell : (s.give cf ip k b).icache ip = (s.icache ip).put ((s.give cf ip k b).icache ip).toDinode := by
  rw [give_inode]
  rfl

theorem give_grown (hl : cf.Layout) (h : Open cf s ip) (hb : Free cf s.block b) (hv : Vacant s ip k) (hN : k ∈ N) :
    Grown cf ip N s (s.give cf ip k b) := by
  have hge := h.sound.free_ge hb
  have hmap := hl.bitmap b hb.1
  have href := give_ref hl h hb hv
  have hrest : Rest cf ip N s (s.give cf ip k b) := by
    refine ⟨give_open hl h hb hv, give_bufs, give_file, give_proc, give_outstanding, fun i hi => give_icache_of_ne hi,
      give_cell, fun i hi _ => give_dinode hl h hb hv hi, fun l hl' => ?_, fun l hl' => ?_, fun l h0 h1 => ?_,
      fun c hc hlt hu hnot => ?_, fun c hc hu => (give_used hl h hb hv hc).mpr (.inr hu), give_total hl h hb hv⟩
    · rw [href, if_neg]
      rintro rfl
      exact hl' hv.empty
    · rw [href, if_neg]
      rintro rfl
      exact hl' hN
    · rw [href] at h1 ⊢
      split
      · exact hb
      · next hne =>
        rw [if_neg hne] at h1
        exact absurd h0 h1
    · refine give_block_of_ne ?_ (by omega) fun hk => ?_
      · rintro rfl
        exact hb.2 hu
      · have := hnot NDIRECT
        rw [ref_indirect] at this
        exact Ne.symm this
  refine ⟨⟨hrest, congrArg Inode.toDinode give_inode, give_dinode hl h hb hv h.inum⟩, fun l hl' h0 => ?_⟩
  obtain ⟨h1, -, h3⟩ := h.ref_data h0
  refine give_block_of_ne ?_ (by omega) fun hk => ?_
  · intro hc
    exact hb.2 (hc ▸ h3)
  · intro hc
    rw [← ref_indirect s.block (s.icache ip).addrs] at hc
    exact hl' (h.inj h0 hc)

theorem exists_free (hr : Room cf N s ip) (hk : k ∈ N) (h0 : ref s.block (s.icache ip).addrs k = 0) :
    ∃ b, Free cf s.block b := by
  have hmem : k ∈ N \ refSet s.block (s.icache ip).addrs := by
    rw [mem_sdiff, mem_refSet, not_not]
    exact ⟨hk, h0⟩
  have h1 := card_pos.mpr ⟨k, hmem⟩
  obtain ⟨b, hb⟩ := card_pos.mp (Nat.lt_of_lt_of_le h1 hr)
  exact ⟨b, mem_freeSet.mp hb⟩

theorem addrOrNew_of_ne {k : Fin (NDIRECT + 1)} (h : (s.icache ip).addrs k ≠ 0) :
    addrOrNew cf ip k s = .ok ((s.icache ip).addrs k, s) := by
  unfold addrOrNew
  rw [bind_of_ok (rfl : inode ip s = .ok (s.icache ip, s)), if_neg h]
  rfl

theorem Sound.free_ne_zero {D : Nat → Dinode} (hl : cf.Layout) (h : Sound cf block D) (hb : Free cf block b) : b ≠ 0 := by
  have := hl.bitmap b hb.1
  have := h.free_ge hb
  omega

theorem addrOrNew_ends (k : Fin (NDIRECT + 1)) (hl : cf.Layout) (h : Open cf s ip) (hbufs : s.bufs = [])
    (hk : k.val ∈ N) (hr : E (.panic "balloc: out of blocks") ∨ Room cf N s ip) :
    Ends E (addrOrNew cf ip k) s fun b s' => b = (s'.icache ip).addrs k ∧ b ≠ 0 ∧ Grown cf ip N s s' := by
  by_cases h0 : (s.icache ip).addrs k = 0
  · have hempty : ref s.block (s.icache ip).addrs k.val = 0 := by rw [ref_addrs, h0]
    have hv : Vacant s ip k.val := by
      have hlt : k.val < NDIRECT + 1 := k.isLt
      have : NDIRECT + 1 ≤ NREF := by decide
      exact ⟨by omega, hempty, fun hc => by omega⟩
    unfold addrOrNew
    refine ends_bind_of_ok (rfl : inode ip s = .ok (s.icache ip, s)) ?_
    rw [if_pos h0]
    refine (balloc_ends ⟨by simp [hbufs], by simp [hbufs]⟩ (hr.imp_right fun hr => exists_free hr hk hempty)).bind
      fun b s' ⟨hs, hfree⟩ => ?_
    subst hs
    have hget : ((s.give cf ip k.val b).icache ip).addrs k = b := by
      rw [← ref_addrs (s.give cf ip k.val b).block ((s.give cf ip k.val b).icache ip).addrs, give_ref hl h hfree hv, if_pos rfl]
    have hgive : s.give cf ip k.val b =
        (s.alloc cf b).setInode ip { s.icache ip with addrs := Function.update (s.icache ip).addrs k b } := dif_pos k.isLt
    have hgrown := give_grown hl h hfree hv hk
    rw [hgive] at hget hgrown
    refine ends_of_ok (bind_of_ok (rfl : inode ip (s.alloc cf b) = .ok (s.icache ip, _))) ?_
    exact ⟨hget.symm, h.sound.free_ne_zero hl hfree, hgrown⟩
  · exact ends_of_ok (addrOrNew_of_ne h0) ⟨rfl, h0, .refl h⟩

theorem bmap_entry (hl : cf.Layout) (h : Open cf s ip) (hbufs : s.bufs = [])
    (hind : (s.icache ip).addrs indirect ≠ 0) (hbn : NDIRECT ≤ bn) (hlt : bn < MAXFILE) (hk : pos bn ∈ N)
    (hr : E (.panic "balloc: out of blocks") ∨ Room cf N s ip) :
    Ends E (do
        let a ← bread ((s.icache ip).addrs indirect)
        if load a (4 * (bn - NDIRECT)) 4 = 0 then do
          let addr ← balloc cf
          log_write ((s.icache ip).addrs indirect) (store a (4 * (bn - NDIRECT)) addr 4)
          brelse ((s.icache ip).addrs indirect)
          pure addr
        else do
          brelse ((s.icache ip).addrs indirect)
          pure (load a (4 * (bn - NDIRECT)) 4) : K Nat) s fun b s' =>
      b = ref s'.block (s'.icache ip).addrs (pos bn) ∧ b ≠ 0 ∧ Grown cf ip N s s' := by
  obtain ⟨hi1, hi2, hi3⟩ := h.indirect_data hind
  have hpos : pos bn = bn + 1 := if_neg (by omega)
  have hentry : ref s.block (s.icache ip).addrs (pos bn) =
      load (s.block ((s.icache ip).addrs indirect)) (4 * (bn - NDIRECT)) 4 := by
    have hlt' : bn + 1 < NREF := by
      simp only [NREF, MAXFILE] at *
      omega
    rw [hpos, ref_entry (by omega) hlt' hind]
    congr 2
  refine ends_bind_of_ok (bread_of_free (by simp [hbufs])) ?_
  rw [← hentry]
  by_cases h0 : ref s.block (s.icache ip).addrs (pos bn) = 0
  · rw [if_pos h0]
    have hok : BufsOk cf { s with bufs := (s.icache ip).addrs indirect :: s.bufs } := by
      refine ⟨fun c hc => ?_, fun c hc => ?_⟩
      · have := hl.bitmap c hc
        simp only [hbufs, List.mem_singleton]
        omega
      · simp only [hbufs, List.mem_singleton] at hc
        exact hc ▸ hi3
    have hv : Vacant s ip (pos bn) := by
      refine ⟨?_, h0, fun _ => hind⟩
      simp only [hpos, NREF, MAXFILE] at *
      omega
    refine (balloc_ends hok (hr.imp_right fun hr => exists_free hr hk h0)).bind fun b s' ⟨hs, hfree⟩ => ?_
    subst hs
    have hfree : Free cf s.block b := hfree
    have hgive : ref (s.give cf ip (pos bn) b).block ((s.give cf ip (pos bn) b).icache ip).addrs (pos bn) = b := by
      rw [give_ref hl h hfree hv, if_pos rfl]
    have hpost := And.intro hgive.symm (And.intro (h.sound.free_ne_zero hl hfree) (give_grown hl h hfree hv hk))
    refine ends_of_ok ?_ hpost
    rw [bind_of_ok (log_write_ok _ _ _), bind_of_ok (rfl : brelse _ _ = .ok ((), _))]
    have hidx : pos bn - (NDIRECT + 1) = bn - NDIRECT := by omega
    simp [State.give, hpos, State.log, State.setBlock, State.alloc, show ¬ bn + 1 < NDIRECT + 1 by omega]
  · rw [if_neg h0]
    refine ends_bind_of_ok (rfl : brelse _ _ = .ok ((), _)) (ends_pure ?_)
    rw [List.erase_cons_head]
    exact ⟨rfl, h0, .refl h⟩

theorem bmap_ends (hl : cf.Layout) (h : Open cf s ip) (hbufs : s.bufs = []) (hbn : bn < MAXFILE) (hk : pos bn ∈ N)
    (hind : NDIRECT ≤ bn → NDIRECT ∈ N) (hr : E (.panic "balloc: out of blocks") ∨ Room cf N s ip) :
    Ends E (bmap cf ip bn) s fun b s' =>
      b = ref s'.block (s'.icache ip).addrs (pos bn) ∧ b ≠ 0 ∧ Grown cf ip N s s' := by
  unfold bmap
  by_cases hd : bn < NDIRECT
  · rw [dif_pos hd]
    have hpos : pos bn = bn := if_pos hd
    rw [hpos] at hk ⊢
    refine (addrOrNew_ends ⟨bn, Nat.lt_succ_of_lt hd⟩ hl h hbufs hk hr).imp fun b s' ⟨hb, h0, hg⟩ => ⟨hb.trans ?_, h0, hg⟩
    exact (ref_addrs s'.block (s'.icache ip).addrs ⟨bn, Nat.lt_succ_of_lt hd⟩).symm
  · rw [dif_neg hd, if_pos (by simp only [MAXFILE] at hbn; omega)]
    refine (addrOrNew_ends indirect hl h hbufs (hind (by omega)) hr).bind fun b s1 ⟨hb, h01, hg1⟩ => ?_
    subst hb
    exact (bmap_entry hl hg1.opened (by rw [hg1.bufs, hbufs]) h01 (by omega) hbn hk (hr.imp_right hg1.room)).imp
      fun b s2 ⟨hb, h02, hg2⟩ => ⟨hb, h02, hg1.trans hl hg2⟩

theorem bmap_of_mapped (hbufs : s.bufs = []) (h0 : ref s.block (s.icache ip).addrs (pos bn) ≠ 0) :
    bmap cf ip bn s = .ok (ref s.block (s.icache ip).addrs (pos bn), s) := by
  have hbn := lt_of_mapped h0
  unfold bmap
  by_cases hd : bn < NDIRECT
  · have hpos : pos bn = bn := if_pos hd
    have haddr := ref_addrs s.block (s.icache ip).addrs ⟨bn, Nat.lt_succ_of_lt hd⟩
    rw [hpos] at h0 ⊢
    rw [dif_pos hd, addrOrNew_of_ne (haddr ▸ h0), ← haddr]
  · have hind := indirect_of_mapped (by omega) h0
    have hpos : pos bn = bn + 1 := if_neg hd
    have hentry : ref s.block (s.icache ip).addrs (pos bn) =
        load (s.block ((s.icache ip).addrs indirect)) (4 * (bn - NDIRECT)) 4 := by
      have hlt' : bn + 1 < NREF := by
        simp only [NREF, MAXFILE] at *
        omega
      rw [hpos, ref_entry (by omega) hlt' hind]
      congr 2
    rw [dif_neg hd, if_pos (by simp only [MAXFILE] at hbn; omega)]
    rw [bind_of_ok (addrOrNew_of_ne hind), bind_of_ok (bread_of_free (by simp [hbufs])), ← hentry, if_neg h0,
      bind_of_ok (rfl : brelse _ _ = .ok ((), _))]
    simp

end Xv6.Disk
