import Xv6.Disk.Image

/-!
# `readi` and `writei`

What `readi` returns is a part of the contents, and `writei` replaces a part of them. The blocks of
all other inodes stay as they are.
-/

open Xv6.Bytes Xv6.Cmd Function List

namespace Xv6.Disk

variable {cf : Conf} {s s' s1 s2 : State} {b c i j k l m n bn off : Nat} {block block' : Nat → Block}
  {a : Fin (NDIRECT + 1) → Nat} {ip : Slot} {N : Finset Nat} {src src' : List UInt8} {data : Block}
  {E : Stop → Prop}

/-! ## Parts of a block -/

theorem splice_in (h1 : off ≤ j) (h2 : j < off + src.length) : splice data off src j = src.getD (j - off) 0 :=
  if_pos ⟨h1, h2⟩

theorem splice_out (h : j < off ∨ off + src.length ≤ j) : splice data off src j = data j :=
  if_neg (by omega)

theorem div_of_block (h : off % BSIZE + m ≤ BSIZE) (h1 : off ≤ j) (h2 : j < off + m) :
    j / BSIZE = off / BSIZE ∧ j % BSIZE = off % BSIZE + (j - off) := by
  simp only [BSIZE] at *
  omega

/-! ## The places a write needs -/

/-- The places of the block of the byte `j`. -/
def places (j : Nat) : Finset Nat :=
  if j / BSIZE < NDIRECT then {j / BSIZE} else {NDIRECT, j / BSIZE + 1}

/-- The places that a write of `n` bytes at `off` needs. -/
def needs (off n : Nat) : Finset Nat := (Finset.Ico off (off + n)).biUnion places

theorem pos_mem_places (j : Nat) : pos (j / BSIZE) ∈ places j := by
  unfold pos places
  split <;> simp

theorem indirect_mem_places (h : NDIRECT ≤ j / BSIZE) : NDIRECT ∈ places j := by
  rw [places, if_neg (by omega)]
  simp

theorem places_subset_needs (h1 : off ≤ j) (h2 : j < off + n) : places j ⊆ needs off n :=
  Finset.subset_biUnion_of_mem places (Finset.mem_Ico.mpr ⟨h1, h2⟩)

/-! ## Writing one block -/

section Log

variable (h : Open cf s ip) (h0 : ref s.block (s.icache ip).addrs k ≠ 0) (hk : k ≠ NDIRECT) (data : Block)

include h h0 hk

theorem log_ref (l : Nat) : ref (s.log (ref s.block (s.icache ip).addrs k) data).block (s.icache ip).addrs l =
    ref s.block (s.icache ip).addrs l := by
  refine ref_congr fun hind => update_of_ne (fun hc => ?_) _ _
  rw [← ref_indirect s.block (s.icache ip).addrs] at hc hind
  exact hk (h.inj hind hc).symm

theorem log_frame (hl : cf.Layout) : Frame cf ip N s (s.log (ref s.block (s.icache ip).addrs k) data) := by
  have hown := h.ref_data h0
  have href := log_ref h h0 hk data
  have hdin : ∀ i < cf.ninodes,
      dinode cf (s.log (ref s.block (s.icache ip).addrs k) data).block i = dinode cf s.block i := by
    intro i hi
    have := hl.iblock_lt hi hown.2.1
    exact dinode_update_of_ne (by omega)
  have hused : ∀ b < cf.size,
      (Used cf (s.log (ref s.block (s.icache ip).addrs k) data).block b ↔ Used cf s.block b) := by
    intro b hb
    have := hl.bitmap b hb
    exact used_update (by omega)
  have hblock : ∀ b, b ≠ ref s.block (s.icache ip).addrs k →
      (s.log (ref s.block (s.icache ip).addrs k) data).block b = s.block b :=
    fun b hb => update_of_ne hb _ _
  have hopen : Open cf (s.log (ref s.block (s.icache ip).addrs k) data) ip := by
    refine ⟨h.inum, h.type, ?_⟩
    have hview : ∀ i < cf.ninodes,
        view cf (s.log (ref s.block (s.icache ip).addrs k) data) ip i = view cf s ip i := by
      intro i hi
      by_cases hne : i = (s.icache ip).inum
      · subst hne
        exact (view_self cf _ ip).trans (view_self cf s ip).symm
      · rw [view_of_ne cf hne]
        exact (view_of_ne cf (s := s.log _ _) hne).trans (hdin i hi)
    refine h.sound.congr (fun i hi ht => by rwa [hview i hi] at ht) (fun i hi ht l => ?_)
      fun b hb hu => (hused b hb).mpr hu
    rw [hview i hi] at ht ⊢
    by_cases hne : i = (s.icache ip).inum
    · subst hne
      rw [view_self]
      exact href l
    · rw [view_of_ne cf hne] at ht ⊢
      refine ref_congr fun hind => hblock _ ?_
      have := h.ref_ne (k := k) (l := NDIRECT) hi hne ht h0
      rwa [ref_indirect] at this
  refine ⟨⟨hopen, rfl, rfl, rfl, rfl, fun _ _ => rfl, rfl, fun i hi _ => hdin i hi, fun l _ => href l,
    fun l _ => href l, fun l h1 h2 => ?_, fun b _ _ _ hnot => hblock b (hnot k).symm,
    fun b hb hu => (hused b hb).mpr hu, ?_⟩, rfl, hdin _ h.inum⟩
  · exact absurd ((href l).trans h1) h2
  · have hf : freeSet cf (s.log (ref s.block (s.icache ip).addrs k) data).block = freeSet cf s.block :=
      Finset.filter_congr fun b hb => not_congr (hused b (Finset.mem_range.mp hb))
    have hr : refSet (s.log (ref s.block (s.icache ip).addrs k) data).block (s.icache ip).addrs =
        refSet s.block (s.icache ip).addrs := Finset.filter_congr fun l _ => by rw [href]
    exact congrArg₂ (· + ·) (congrArg Finset.card hf) (congrArg Finset.card hr)

end Log

/-! ## The loop of `writei` -/

/-- `src` is in the file from `off` on, and its other bytes are as they were. -/
structure Filled (cf : Conf) (ip : Slot) (N : Finset Nat) (off : Nat) (src : List UInt8) (s s' : State) : Prop
    extends Frame cf ip N s s' where
  mapped : ∀ j, off ≤ j → j < off + src.length → ref s'.block (s'.icache ip).addrs (pos (j / BSIZE)) ≠ 0
  inside : ∀ j, off ≤ j → j < off + src.length → byteAt s'.block (s'.icache ip).addrs j = src.getD (j - off) 0
  outside : ∀ j, j < off ∨ off + src.length ≤ j → ref s.block (s.icache ip).addrs (pos (j / BSIZE)) ≠ 0 →
    byteAt s'.block (s'.icache ip).addrs j = byteAt s.block (s.icache ip).addrs j

theorem Filled.nil (h : Open cf s ip) : Filled cf ip N off [] s s :=
  ⟨.refl h, fun j h1 h2 => absurd h2 (by simp; omega), fun j h1 h2 => absurd h2 (by simp; omega), fun _ _ _ => rfl⟩

theorem Filled.trans (hl : cf.Layout) (h : Filled cf ip N off src s s1)
    (h' : Filled cf ip N m src' s1 s2) (hm : m = off + src.length) : Filled cf ip N off (src ++ src') s s2 where
  toFrame := h.toFrame.trans hl h'.toFrame
  mapped j h1 h2 := by
    rw [length_append] at h2
    by_cases hj : j < off + src.length
    · rw [h'.keep _ (h.mapped j h1 hj)]
      exact h.mapped j h1 hj
    · exact h'.mapped j (by omega) (by omega)
  inside j h1 h2 := by
    rw [length_append] at h2
    by_cases hj : j < off + src.length
    · rw [h'.outside j (.inl (by omega)) (h.mapped j h1 hj), h.inside j h1 hj, getD_append _ _ _ _ (by omega)]
    · rw [h'.inside j (by omega) (by omega), getD_append_right _ _ _ _ (by omega)]
      congr 1
      omega
  outside j hj h0 := by
    rw [length_append] at hj
    rw [h'.outside j (by omega) (by rwa [h.keep _ h0]), h.outside j (by omega) h0]

theorem Grown.filled (hl : cf.Layout) (hg : Grown cf ip N s s1)
    (h0 : ref s1.block (s1.icache ip).addrs (pos (off / BSIZE)) ≠ 0) (hfit : off % BSIZE + src.length ≤ BSIZE) :
    Filled cf ip N off src s (s1.log (ref s1.block (s1.icache ip).addrs (pos (off / BSIZE)))
      (splice (s1.block (ref s1.block (s1.icache ip).addrs (pos (off / BSIZE)))) (off % BSIZE) src)) := by
  have hk := pos_ne_indirect (off / BSIZE)
  obtain ⟨b, hb⟩ : ∃ b, b = ref s1.block (s1.icache ip).addrs (pos (off / BSIZE)) := ⟨_, rfl⟩
  have href := log_ref hg.opened h0 hk (splice (s1.block b) (off % BSIZE) src)
  have hframe := log_frame (N := N) hg.opened h0 hk (splice (s1.block b) (off % BSIZE) src) hl
  rw [← hb] at href hframe h0 ⊢
  -- The bytes of the block that was written.
  have hself : ∀ j, j / BSIZE = off / BSIZE →
      byteAt (s1.log b (splice (s1.block b) (off % BSIZE) src)).block (s1.icache ip).addrs j =
        splice (s1.block b) (off % BSIZE) src (j % BSIZE) := by
    intro j hj
    rw [byteAt, href, hj, ← hb, if_neg h0]
    exact congrFun (update_self _ _ _) _
  refine ⟨hg.toFrame.trans hl hframe, fun j h1 h2 => ?_, fun j h1 h2 => ?_, fun j hj hold => ?_⟩
  · obtain ⟨hd, -⟩ := div_of_block hfit h1 h2
    change ref _ (s1.icache ip).addrs _ ≠ 0
    rw [href, hd, ← hb]
    exact h0
  · obtain ⟨hd, hm⟩ := div_of_block hfit h1 h2
    refine (hself j hd).trans ?_
    rw [hm, splice_in (by omega) (by omega)]
    congr 1
    omega
  · have hkeep := hg.keep _ hold
    have hown := hg.own _ (pos_ne_indirect _) hold
    by_cases hd : j / BSIZE = off / BSIZE
    · refine (hself j hd).trans ?_
      have hout : j % BSIZE < off % BSIZE ∨ off % BSIZE + src.length ≤ j % BSIZE := by
        simp only [BSIZE] at *
        omega
      rw [splice_out hout, byteAt, if_neg hold, ← hown, ← hkeep, hd, ← hb]
    · change byteAt _ (s1.icache ip).addrs j = _
      rw [byteAt, byteAt, href, hkeep, if_neg hold, if_neg hold, ← hown]
      refine congrFun (update_of_ne (fun hc => hd (pos_inj ?_)) _ _) _
      rw [hb, ← hkeep] at hc
      exact hg.opened.inj (by rwa [hkeep]) hc

theorem writeLoop_ends (hl : cf.Layout) (k : Nat) (h : Open cf s ip) (hbufs : s.bufs = []) (hlen : src.length ≤ k)
    (hmax : off + src.length ≤ MAXFILE * BSIZE) (hN : needs off src.length ⊆ N)
    (hr : E (.panic "balloc: out of blocks") ∨ Room cf N s ip) :
    Ends E (writeLoop cf ip k off src) s fun _ s' => Filled cf ip N off src s s' := by
  induction k generalizing off src s with
  | zero =>
    obtain rfl := eq_nil_of_length_eq_zero (Nat.le_zero.mp hlen)
    exact ends_pure (.nil h)
  | succ k ih =>
    rw [writeLoop]
    by_cases hz : src.length = 0
    · obtain rfl := eq_nil_of_length_eq_zero hz
      exact ends_pure (.nil h)
    · rw [if_neg hz]
      have hplaces : places off ⊆ N := (places_subset_needs (Nat.le_refl _) (by omega)).trans hN
      have hbn : off / BSIZE < MAXFILE := Nat.div_lt_of_lt_mul (by rw [Nat.mul_comm]; omega)
      refine (bmap_ends hl h hbufs hbn (hplaces (pos_mem_places off))
        (fun hd => hplaces (indirect_mem_places hd)) hr).bind fun b s1 ⟨hb, h0, hg⟩ => ?_
      subst hb
      obtain ⟨m, hm⟩ : ∃ m, m = min src.length (BSIZE - off % BSIZE) := ⟨_, rfl⟩
      have hmpos : 0 < m ∧ m ≤ src.length ∧ off % BSIZE + m ≤ BSIZE := by
        simp only [BSIZE] at *
        omega
      have htake : (src.take m).length = m := length_take_of_le hmpos.2.1
      have hdrop : (src.drop m).length = src.length - m := length_drop
      have hfill : Filled cf ip N off (src.take m) s _ := hg.filled hl h0 (by rw [htake]; exact hmpos.2.2)
      have hN' : needs (off + m) (src.drop m).length ⊆ N := by
        intro l hl'
        obtain ⟨j, hj, hp⟩ := Finset.mem_biUnion.mp hl'
        rw [Finset.mem_Ico, hdrop] at hj
        exact hN (places_subset_needs (by omega) (by omega) hp)
      have hrest := ih hfill.opened (by rw [hfill.bufs, hbufs]) (by omega) (by omega) hN' (hr.imp_right hfill.room)
      have hnot : ref s1.block (s1.icache ip).addrs (pos (off / BSIZE)) ∉ s1.bufs := by simp [hg.bufs, hbufs]
      have hround := update_block (fun data => splice data (off % BSIZE) (src.take m))
        (fun _ => writeLoop cf ip k (off + m) (src.drop m)) hnot
      rw [← hm]
      unfold Ends at hrest ⊢
      rw [hround]
      refine Ends.imp (P := fun _ s2 => Filled cf ip N (off + m) (src.drop m) _ s2) hrest fun _ s2 hrest => ?_
      have := hfill.trans hl hrest (by rw [htake])
      rwa [take_append_drop] at this

/-! ## Changing an inode -/

theorem Open.fits (hl : cf.Layout) (h : Open cf s ip) (hn : n < 0x100000000) :
    ((s.icache ip).toDinode.withSize n).Fits := by
  refine ⟨hn, fun i => ?_⟩
  have hr := ref_addrs s.block (s.icache ip).addrs i
  by_cases h0 : (s.icache ip).addrs i = 0
  · simp [Dinode.withSize, h0]
  · have := h.ref_data (hr ▸ h0)
    have := hl.size_le
    rw [hr] at *
    simp only [Dinode.withSize]
    omega

/-- The inode becomes `d`, in memory and on disk. -/
def State.save (cf : Conf) (s : State) (ip : Slot) (d : Dinode) : State :=
  (s.setInode ip ((s.icache ip).put d)).log (cf.iblock (s.icache ip).inum)
    (putDinode (s.block (cf.iblock (s.icache ip).inum)) (ioff (s.icache ip).inum) d)

theorem iupdate_ok (h : cf.iblock (s.icache ip).inum ∉ s.bufs) (d : Dinode) :
    iupdate cf ip (s.setInode ip ((s.icache ip).put d)) = .ok ((), s.save cf ip d) := by
  have hx : inode ip (s.setInode ip ((s.icache ip).put d)) =
      .ok ((s.icache ip).put d, s.setInode ip ((s.icache ip).put d)) := by
    simp [inode, State.setInode]
  have hread : bread (cf.iblock (s.icache ip).inum) (s.setInode ip ((s.icache ip).put d)) = .ok (_, _) := bread_of_free h
  rw [iupdate, bind_of_ok hx, Inode.put_inum, bind_of_ok hread, bind_of_ok (log_write_ok _ _ _)]
  simp [brelse, State.save, State.log, State.setBlock, State.setInode]

theorem save_inode (d : Dinode) : (s.save cf ip d).icache ip = (s.icache ip).put d :=
  update_self _ _ _

theorem save_block_of_ne {d : Dinode} (h : b ≠ cf.iblock (s.icache ip).inum) : (s.save cf ip d).block b = s.block b :=
  update_of_ne h _ _

theorem save_dinode {d : Dinode} (h : d.Fits) : dinode cf (s.save cf ip d).block (s.icache ip).inum = d :=
  dinode_putInode h

section Save

variable (hl : cf.Layout) (h : Open cf s ip) {d : Dinode} (hd : d.addrs = (s.icache ip).addrs) (ht : d.type ≠ 0)

include hl h hd

theorem save_block (h0 : ref s.block d.addrs k ≠ 0) :
    (s.save cf ip d).block (ref s.block d.addrs k) = s.block (ref s.block d.addrs k) := by
  rw [hd] at h0 ⊢
  have hown := h.ref_data h0
  have := hl.iblock_lt h.inum hown.2.1
  exact save_block_of_ne (by omega)

theorem save_ref (k : Nat) : ref (s.save cf ip d).block d.addrs k = ref s.block (s.icache ip).addrs k := by
  rw [← hd]
  refine ref_congr fun hind => ?_
  have := save_block hl h hd (k := NDIRECT)
  rw [ref_indirect] at this
  exact this hind

theorem save_byteAt (j : Nat) :
    byteAt (s.save cf ip d).block d.addrs j = byteAt s.block (s.icache ip).addrs j := by
  rw [byteAt, save_ref hl h hd, byteAt]
  split
  · rfl
  · next h0 =>
    rw [← hd] at h0 ⊢
    rw [save_block hl h hd h0]

include ht

theorem save_rest : Rest cf ip N s (s.save cf ip d) := by
  have hinum : ((s.save cf ip d).icache ip).inum = (s.icache ip).inum := by rw [save_inode, Inode.put_inum]
  have haddr : ((s.save cf ip d).icache ip).addrs = d.addrs := by rw [save_inode, Inode.put_toDinode]
  have href : ∀ k, ref (s.save cf ip d).block ((s.save cf ip d).icache ip).addrs k = ref s.block (s.icache ip).addrs k :=
    fun k => by rw [haddr, save_ref hl h hd]
  have hdin : ∀ i, i ≠ (s.icache ip).inum → dinode cf (s.save cf ip d).block i = dinode cf s.block i :=
    fun i hne => dinode_putInode_of_ne hne
  have hused : ∀ b < cf.size, (Used cf (s.save cf ip d).block b ↔ Used cf s.block b) :=
    fun b hb => used_update (hl.iblock_ne_bblock h.inum b).symm
  have hblock : ∀ b, cf.dataStart ≤ b → b < cf.size → (s.save cf ip d).block b = s.block b := by
    intro b h1 h2
    have := hl.iblock_lt h.inum h2
    exact save_block_of_ne (by omega)
  have hopen : Open cf (s.save cf ip d) ip := by
    refine ⟨by rw [hinum]; exact h.inum, by rw [save_inode]; exact ht, ?_⟩
    have hself : view cf (s.save cf ip d) ip (s.icache ip).inum = d := by
      rw [← hinum, view_self, save_inode, Inode.put_toDinode]
    have hother : ∀ i, i ≠ (s.icache ip).inum → view cf (s.save cf ip d) ip i = dinode cf s.block i :=
      fun i hne => (view_of_ne cf (by rwa [hinum])).trans (hdin i hne)
    refine h.sound.congr (fun i hi hti => ?_) (fun i hi hti k => ?_) fun b hb hu => (hused b hb).mpr hu
    · by_cases hne : i = (s.icache ip).inum
      · subst hne
        rw [view_self]
        exact h.type
      · rw [view_of_ne cf hne]
        rwa [hother i hne] at hti
    · by_cases hne : i = (s.icache ip).inum
      · subst hne
        rw [hself, view_self, save_ref hl h hd]
      · rw [hother i hne] at hti ⊢
        rw [view_of_ne cf hne]
        refine ref_congr fun hind => ?_
        have hdata := h.sound.data i hi (by rwa [view_of_ne cf hne]) NDIRECT
        rw [view_of_ne cf hne, ref_indirect] at hdata
        obtain ⟨h1, h2, -⟩ := hdata hind
        exact hblock _ h1 h2
  refine ⟨hopen, rfl, rfl, rfl, rfl, fun i hi => update_of_ne hi _ _,
    by rw [save_inode, Inode.put_toDinode], fun i _ => hdin i,
    fun k _ => href k, fun k _ => href k, fun k h1 h2 => absurd ((href k).trans h1) h2,
    fun b h1 h2 _ _ => hblock b h1 h2, fun b hb hu => (hused b hb).mpr hu, ?_⟩
  have hf : freeSet cf (s.save cf ip d).block = freeSet cf s.block :=
    Finset.filter_congr fun b hb => not_congr (hused b (Finset.mem_range.mp hb))
  have hr : refSet (s.save cf ip d).block ((s.save cf ip d).icache ip).addrs = refSet s.block (s.icache ip).addrs :=
    Finset.filter_congr fun k _ => by rw [href]
  rw [hf, hr]

end Save

/-! ## `writei` -/

/-- A file or directory that is open, with all its blocks, as it is on disk. -/
structure Ready (cf : Conf) (s : State) (ip : Slot) : Prop extends Open cf s ip where
  bufs : s.bufs = []
  disk : dinode cf s.block (s.icache ip).inum = (s.icache ip).toDinode
  full : Full s.block (s.icache ip).toDinode
  kind : (s.icache ip).type ≠ T_DEV

/-- `src` is written at `off`. -/
structure Written (cf : Conf) (ip : Slot) (off : Nat) (src : List UInt8) (s s' : State) : Prop
    extends Rest cf ip (needs off src.length) s s' where
  ready : Ready cf s' ip
  inode : (s'.icache ip).toDinode =
    ((s.icache ip).toDinode.withSize (max (s.icache ip).size (off + src.length))).withAddrs (s'.icache ip).addrs
  contents : contents s'.block (s'.icache ip).toDinode =
    (contents s.block (s.icache ip).toDinode).take off ++ src ++
      (contents s.block (s.icache ip).toDinode).drop (off + src.length)

theorem contents_eq {d d' : Dinode} (hoff : off ≤ d.size) (hsize : d'.size = max d.size (off + src.length))
    (hin : ∀ j, off ≤ j → j < off + src.length → byteAt block' d'.addrs j = src.getD (j - off) 0)
    (hout : ∀ j < d.size, j < off ∨ off + src.length ≤ j → byteAt block' d'.addrs j = byteAt block d.addrs j) :
    contents block' d' = (contents block d).take off ++ src ++ (contents block d).drop (off + src.length) := by
  refine ext_getElem (by simp; omega) fun j h1 h2 => ?_
  rw [length_contents] at h1
  simp only [contents, getElem_map, getElem_range, getElem_append, getElem_take, getElem_drop,
    length_append, length_take, length_map, length_range, Nat.min_eq_left hoff]
  split
  · next h3 =>
    split
    · next h4 => exact hout j (by omega) (.inl h4)
    · next h4 => rw [hin j (by omega) h3, getD_eq_getElem]
  · next h3 =>
    rw [hout j (by omega) (by omega)]
    congr 1
    omega

theorem Full.place {d : Dinode} (h : Full block d) (hj : j < d.size) (hp : k ∈ places j) : ref block d.addrs k ≠ 0 := by
  have hmap := h.mapped hj
  unfold places at hp
  split at hp
  · next hd =>
    rw [Finset.mem_singleton.mp hp]
    rwa [pos, if_pos hd] at hmap
  · next hd =>
    rw [Finset.mem_insert, Finset.mem_singleton] at hp
    rcases hp with rfl | rfl
    · rw [ref_indirect]
      exact indirect_of_mapped (by omega) hmap
    · rwa [pos, if_neg hd] at hmap

theorem Filled.addrs_eq (h : Filled cf ip (needs off src.length) off src s s')
    (hfull : Full s.block (s.icache ip).toDinode) (hsize : off + src.length ≤ (s.icache ip).size) :
    (s'.icache ip).addrs = (s.icache ip).addrs := by
  have hall : ∀ k, ref s'.block (s'.icache ip).addrs k = ref s.block (s.icache ip).addrs k := by
    intro k
    by_cases hk : k ∈ needs off src.length
    · obtain ⟨j, hj, hp⟩ := Finset.mem_biUnion.mp hk
      rw [Finset.mem_Ico] at hj
      exact h.keep k (hfull.place (by omega) hp)
    · exact h.only k hk
  funext i
  have := hall i.val
  rwa [ref_addrs, ref_addrs] at this

theorem Filled.full (h : Filled cf ip N off src s s') (hfull : Full s.block (s.icache ip).toDinode)
    (hoff : off ≤ (s.icache ip).size) (hbn : bn * BSIZE < max (s.icache ip).size (off + src.length)) :
    ref s'.block (s'.icache ip).addrs (pos bn) ≠ 0 := by
  by_cases hb : bn * BSIZE < (s.icache ip).size
  · rw [h.keep _ (hfull bn hb)]
    exact hfull bn hb
  · have := h.mapped (bn * BSIZE) (by omega) (by omega)
    rwa [Nat.mul_div_cancel _ (by decide)] at this

theorem writei_ends (hl : cf.Layout) (h : Ready cf s ip) (hoff : off ≤ (s.icache ip).size)
    (hmax : off + src.length ≤ MAXFILE * BSIZE)
    (hr : E (.panic "balloc: out of blocks") ∨ Room cf (needs off src.length) s ip) :
    Ends E (writei cf ip src off) s fun n s' => n = (src.length : Int) ∧ Written cf ip off src s s' := by
  have hwrap : u32 (off + src.length) = off + src.length :=
    u32_of_lt (Nat.lt_of_le_of_lt hmax (by decide))
  unfold writei
  refine ends_bind_of_ok (rfl : inode ip s = .ok (s.icache ip, s)) ?_
  rw [if_neg h.kind, hwrap, if_neg (by omega), if_neg (by omega)]
  refine (writeLoop_ends hl src.length h.toOpen h.bufs (Nat.le_refl _) hmax (Finset.Subset.refl _) hr).bind fun _ s1 hf => ?_
  have hsize : (s1.icache ip).size = (s.icache ip).size := by
    rw [hf.inode]
    rfl
  have hout : ∀ j < (s.icache ip).size, j < off ∨ off + src.length ≤ j →
      byteAt s1.block (s1.icache ip).addrs j = byteAt s.block (s.icache ip).addrs j :=
    fun j hj hjo => hf.outside j hjo (h.full.mapped hj)
  refine ends_bind_of_ok (rfl : inode ip s1 = .ok (s1.icache ip, s1)) ?_
  rw [hsize]
  by_cases hgrow : 0 < src.length ∧ (s.icache ip).size < off + src.length
  · have hfits : ((s1.icache ip).toDinode.withSize (off + src.length)).Fits :=
      hf.opened.fits hl (Nat.lt_of_le_of_lt hmax (by decide))
    have hsave := save_rest (N := needs off src.length) (d := (s1.icache ip).toDinode.withSize (off + src.length)) hl hf.opened rfl
      hf.opened.type
    obtain ⟨d, hd⟩ : ∃ d, d = (s1.icache ip).toDinode.withSize (off + src.length) := ⟨_, rfl⟩
    have haddr : d.addrs = (s1.icache ip).addrs := by rw [hd]; rfl
    have hinode : ((s1.save cf ip d).icache ip).toDinode = d := by rw [save_inode, Inode.put_toDinode]
    have hmaxeq : max (s.icache ip).size (off + src.length) = off + src.length := by omega
    rw [← hd] at hfits hsave
    have hrun : (when (0 < src.length ∧ (s.icache ip).size < off + src.length) (do
        setInode ip { s1.icache ip with size := off + src.length }
        iupdate cf ip) : K Unit) s1 = .ok ((), s1.save cf ip d) := by
      have hup : iupdate cf ip (s1.setInode ip { s1.icache ip with size := off + src.length }) =
          .ok ((), s1.save cf ip d) := by
        rw [hd]
        exact iupdate_ok (by simp [hf.bufs, h.bufs]) _
      rw [when, if_pos hgrow]
      exact (bind_of_ok rfl).trans hup
    refine ends_bind_of_ok hrun (ends_pure ⟨rfl, hf.toRest.trans hl hsave,
      ⟨hsave.opened, hf.bufs.trans h.bufs, ?_, ?_, ?_⟩, ?_, ?_⟩)
    · rw [hsave.inum, hinode]
      exact save_dinode hfits
    · intro bn hbn
      rw [hinode, save_ref hl hf.opened haddr]
      rw [hinode, hd] at hbn
      exact hf.full h.full hoff (by rw [hmaxeq]; exact hbn)
    · rw [hinode, hd]
      change (s1.icache ip).toDinode.type ≠ _
      rw [hf.inode]
      exact h.kind
    · rw [hinode, hmaxeq, haddr, hd, hf.inode]
      rfl
    · rw [hinode]
      refine contents_eq hoff (by rw [hmaxeq, hd]; rfl) (fun j h1 h2 => ?_) fun j hj hjo => ?_
      · rw [save_byteAt hl hf.opened haddr]
        exact hf.inside j h1 h2
      · rw [save_byteAt hl hf.opened haddr]
        exact hout j hj hjo
  · have hle : off + src.length ≤ (s.icache ip).size := by omega
    have haddr := hf.addrs_eq h.full hle
    have hdin : (s1.icache ip).toDinode = (s.icache ip).toDinode := by
      rw [hf.inode, haddr]
      rfl
    have hmaxeq : max (s.icache ip).size (off + src.length) = (s.icache ip).size := by omega
    rw [when, if_neg hgrow]
    refine ends_pure ⟨rfl, hf.toRest, ⟨hf.opened, hf.bufs.trans h.bufs, ?_, ?_, ?_⟩, ?_, ?_⟩
    · rw [hf.inum, hf.ondisk, h.disk, hdin]
    · intro bn hbn
      exact hf.full h.full hoff (by rw [hmaxeq]; rwa [hdin] at hbn)
    · rw [hdin]
      exact h.kind
    · rw [hmaxeq, hdin]
      rfl
    · exact contents_eq hoff (by rw [hmaxeq, hdin]) hf.inside hout

theorem writei_spec (hl : cf.Layout) (h : Ready cf s ip) (hoff : off ≤ (s.icache ip).size)
    (hmax : off + src.length ≤ MAXFILE * BSIZE) (hr : Room cf (needs off src.length) s ip) :
    ∃ s', writei cf ip src off s = .ok ((src.length : Int), s') ∧ Written cf ip off src s s' := by
  obtain ⟨n, s', hrun, rfl, hw⟩ := (writei_ends (E := fun _ => False) hl h hoff hmax (.inr hr)).ok
  exact ⟨s', hrun, hw⟩

theorem writei_refuses (h : Ready cf s ip) (hoff : off < 0x100000000) (hlen : src.length < 0x100000000)
    (hbad : (s.icache ip).size < off ∨ MAXFILE * BSIZE < off + src.length) :
    writei cf ip src off s = .ok (-1, s) := by
  unfold writei
  rw [bind_of_ok (rfl : inode ip s = .ok (s.icache ip, s)), if_neg h.kind]
  by_cases h1 : (s.icache ip).size < off ∨ u32 (off + src.length) < off
  · rw [if_pos h1]
    rfl
  · rw [if_neg h1, if_pos]
    · rfl
    · simp only [u32, MAXFILE, NDIRECT, NINDIRECT, BSIZE] at *
      omega

/-! ## `readi` -/

theorem readLoop_spec (k : Nat) (hbufs : s.bufs = []) (hk : n ≤ k)
    (hmap : ∀ j, off ≤ j → j < off + n → ref s.block (s.icache ip).addrs (pos (j / BSIZE)) ≠ 0) :
    readLoop cf ip k off n s = .ok ((List.range n).map fun i => byteAt s.block (s.icache ip).addrs (off + i), s) := by
  induction k generalizing off n with
  | zero =>
    obtain rfl := Nat.le_zero.mp hk
    rfl
  | succ k ih =>
    rw [readLoop]
    by_cases hn : n = 0
    · subst hn
      rfl
    · rw [if_neg hn]
      have h0 := hmap off (Nat.le_refl _) (by omega)
      obtain ⟨m, hm⟩ : ∃ m, m = min n (BSIZE - off % BSIZE) := ⟨_, rfl⟩
      have hmpos : 0 < m ∧ m ≤ n ∧ off % BSIZE + m ≤ BSIZE := by
        simp only [BSIZE] at *
        omega
      have hrest : readLoop cf ip k (off + m) (n - m) s = _ :=
        ih (by omega) fun j h1 h2 => hmap j (by omega) (by omega)
      rw [bind_of_ok (bmap_of_mapped hbufs h0), bind_of_ok (bread_of_free (by simp [hbufs])), ← hm,
        bind_of_ok (rfl : brelse _ _ = .ok ((), _))]
      simp only [erase_cons_head]
      rw [bind_of_ok hrest, pure_apply]
      congr 2
      have hsplit : n = m + (n - m) := by omega
      conv_rhs => rw [hsplit, range_add, map_append, map_map]
      congr 1
      · refine map_congr_left fun i hi => ?_
        rw [mem_range] at hi
        obtain ⟨hd, hmod⟩ := div_of_block hmpos.2.2 (Nat.le_add_right off i) (by omega)
        rw [byteAt, hd, hmod, if_neg h0]
        congr 1
        omega
      · refine map_congr_left fun i _ => ?_
        simp only [comp_apply, Nat.add_assoc]

theorem readi_spec (h : Ready cf s ip) (hoff : off < 0x100000000) (hn : n < 0x100000000) :
    readi cf ip off n s = .ok (if off ≤ (s.icache ip).size ∧ off + n < 0x100000000 then
      some (((contents s.block (s.icache ip).toDinode).drop off).take n) else none, s) := by
  unfold readi
  rw [bind_of_ok (rfl : inode ip s = .ok (s.icache ip, s)), if_neg h.kind]
  by_cases hok : off ≤ (s.icache ip).size ∧ off + n < 0x100000000
  · obtain ⟨m, hm⟩ : ∃ m, m = if (s.icache ip).size < off + n then (s.icache ip).size - off else n := ⟨_, rfl⟩
    have hle : off + m ≤ (s.icache ip).size ∧ m = min n ((s.icache ip).size - off) := by
      rw [hm]
      split <;> omega
    have hloop : readLoop cf ip m off m s = _ :=
      readLoop_spec m h.bufs (Nat.le_refl m) fun j _ h2 => h.full.mapped (j := j) (by omega)
    rw [if_neg (by rw [u32_of_lt hok.2]; omega), if_pos hok, ← hm]
    rw [bind_of_ok hloop, pure_apply]
    congr 3
    refine ext_getElem (by simp; omega) fun j _ _ => ?_
    simp [contents]
  · rw [if_neg hok, if_pos]
    · rfl
    · simp only [u32] at *
      omega

/-! ## An inode is an array of bytes -/

/-- No inode but the one in slot `ip` has changed. -/
structure SameOthers (cf : Conf) (ip : Slot) (s s' : State) : Prop where
  icache : ∀ q, q ≠ ip → s'.icache q = s.icache q
  disk : ∀ i < cf.ninodes, i ≠ (s.icache ip).inum → dinode cf s'.block i = dinode cf s.block i
  contents : ∀ i < cf.ninodes, i ≠ (s.icache ip).inum → (dinode cf s.block i).type ≠ 0 →
    contents s'.block (dinode cf s'.block i) = contents s.block (dinode cf s.block i)

theorem Rest.sameOthers (h : Rest cf ip N s s') (ho : Open cf s ip) : SameOthers cf ip s s' :=
  ⟨h.icache, h.disk, fun _ hi hne ht => h.other_contents ho hi hne ht⟩

theorem fresh_ready : Ready sample fresh rootSlot :=
  ⟨fresh_open, rfl, dinode_root, root_full, by decide⟩

end Xv6.Disk
