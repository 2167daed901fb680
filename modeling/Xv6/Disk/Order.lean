import Xv6.Disk.Walk

/-!
# Writing in order

Changes of an inode that is locked, and of its contents, leave the file system in order.
-/

open Xv6.Bytes Xv6.Cmd

namespace Xv6.Disk

variable {cf : Conf} {block : Nat → Block} {s0 s s' s1 : State} {L hs : List Slot} {q r ip dp : Slot} {i j k n v : Nat}
  {E : Stop → Prop} {name : Mem} {N : Finset Nat} {d : Dinode}

namespace InOrder

section Slot

variable (h : InOrder cf L s) (hpos : 0 < (s.icache q).ref) (hv : (s.icache q).valid = true)

include h hpos hv

theorem loaded : (s.icache q).Loaded cf s.block := h.cache.loaded q hpos hv

theorem opened : Open cf s q := by
  obtain ⟨h1, h2, h3⟩ := h.loaded hpos hv
  exact ⟨h1, h3, by rw [view_eq h2.symm]; exact h.disk.sound⟩

theorem dirOk (ht : (s.icache q).type = T_DIR) : DirOk cf s.block (s.icache q).toDinode := by
  obtain ⟨h1, h2, -⟩ := h.loaded hpos hv
  rw [h2]
  exact h.disk.dirs _ h1 (by rw [← h2]; exact ht)

end Slot

theorem ilock_dir (h : InOrder cf [] s0) (hf : From cf s0 [] [dp] s) (hlt : (s.icache dp).inum < cf.ninodes)
    (ht : (dinode cf s0.block (s.icache dp).inum).type = T_DIR) :
    Ends E (ilock cf dp) s fun _ s' => From cf s0 [dp] [dp] s' ∧ (s'.icache dp).valid = true ∧
      (s'.icache dp).inum = (s.icache dp).inum ∧ (s'.icache dp).type = T_DIR ∧ Dir cf s' dp := by
  have hpos := hf.held_ref (List.mem_singleton_self dp)
  refine (ilock_ends hf h.bufs hpos List.not_mem_nil hlt (.inr ?_)).imp fun _ s' ⟨h', hv, hi, _⟩ => ?_
  · rw [hf.block, ht]
    decide
  · have hpos' := h'.held_ref (List.mem_singleton_self dp)
    have htype : (s'.icache dp).type = T_DIR := by
      rw [(h'.cache.loaded dp hpos' hv).data, h'.block, hi, ht]
    exact ⟨h', hv, hi, htype, h'.dir h.disk h.bufs hpos' hv htype⟩

theorem rest (h : InOrder cf L s) (hq : q ∈ L) (hv : (s.icache q).valid = true) (hr : Rest cf q N s s')
    (hd : dinode cf s'.block (s'.icache q).inum = (s'.icache q).toDinode)
    (hdir : (s'.icache q).type = T_DIR → DirOk cf s'.block (s'.icache q).toDinode) : InOrder cf L s' := by
  have hpos := h.locked_ref q hq
  have ho := h.opened hpos hv
  have hcell : ∀ r, (s'.icache r).ref = (s.icache r).ref ∧ (s'.icache r).inum = (s.icache r).inum ∧
      (s'.icache r).locked = (s.icache r).locked := by
    intro r
    by_cases hrq : r = q
    · subst hrq
      rw [hr.cell]
      exact ⟨rfl, rfl, rfl⟩
    · rw [hr.icache r hrq]
      exact ⟨rfl, rfl, rfl⟩
  refine ⟨⟨?_, fun i hi ht => ?_⟩, hr.cache h.cache hpos hd, hr.bufs.trans h.bufs, fun i hi ht hn => ?_, h.root, fun r => ?_,
    fun r hrL => ?_, fun r hrp => ?_, fun p => ?_⟩
  · have := hr.opened.sound
    rwa [view_eq hd] at this
  · by_cases hi' : i = (s'.icache q).inum
    · subst hi'
      rw [hd] at ht ⊢
      exact hdir ht
    · rw [hr.inum] at hi'
      have hsame := hr.disk i hi hi'
      rw [hsame] at ht
      have hne : (dinode cf s.block i).type ≠ 0 := by
        rw [ht]
        decide
      obtain ⟨h1, h2, h3⟩ := h.disk.dirs i hi ht
      have hcont := hr.other_contents ho hi hi' hne
      refine ⟨fun bn hbn => ?_, by rw [hsame]; exact h2, fun j hj k i' hc => ?_⟩
      · rw [hr.other_ref ho hi hi' hne]
        rw [hsame] at hbn
        exact h1 bn hbn
      · rw [hcont] at hj hc
        exact h3 j hj k i' hc
  · by_cases hi' : i = (s.icache q).inum
    · exact ⟨q, by rw [(hcell q).1]; exact hpos, by rw [(hcell q).2.1, hi']⟩
    · rw [hr.disk i hi hi'] at ht hn
      obtain ⟨r, hr0, hri⟩ := h.held i hi ht hn
      exact ⟨r, by rw [(hcell r).1]; exact hr0, by rw [(hcell r).2.1, hri]⟩
  · rw [(hcell r).2.2]
    exact h.locks r
  · rw [(hcell r).1]
    exact h.locked_ref r hrL
  · rw [(hcell r).1] at hrp
    rw [(hcell r).2.1]
    exact h.bound r hrp
  · rw [hr.proc, (hcell _).1]
    exact h.cwd p

end InOrder

/-! ## The fields of an inode -/

/-- The same inode with other numbers and links. -/
structure Dinode.Same (d d' : Dinode) : Prop where
  type : d'.type = d.type
  size : d'.size = d.size
  addrs : d'.addrs = d.addrs

theorem InOrder.save (hl : cf.Layout) (h : InOrder cf L s) (hq : q ∈ L) (hv : (s.icache q).valid = true)
    (hd : (s.icache q).toDinode.Same d) : Rest cf q N s (s.save cf q d) ∧ InOrder cf L (s.save cf q d) := by
  have hpos := h.locked_ref q hq
  have ho := h.opened hpos hv
  have hrest := save_rest (N := N) hl ho hd.addrs (by rw [hd.type]; exact ho.type)
  have hinode : ((s.save cf q d).icache q).toDinode = d := by rw [save_inode, Inode.put_toDinode]
  have hfits : d.Fits := by
    have := ho.fits hl (n := d.size) (by
      rw [hd.size, (h.loaded hpos hv).data]
      exact (dinode_fits cf s.block _).size)
    exact ⟨this.size, fun i => by rw [hd.addrs]; exact this.addrs i⟩
  refine ⟨hrest, h.rest hq hv hrest ?_ fun ht => ?_⟩
  · rw [hrest.inum, hinode]
    exact save_dinode hfits
  · rw [hinode] at ht ⊢
    obtain ⟨h1, h2, h3⟩ := h.dirOk hpos hv (hd.type ▸ ht)
    have hcont : contents (s.save cf q d).block d = contents s.block (s.icache q).toDinode := by
      unfold contents
      rw [hd.size]
      exact List.map_congr_left fun j _ => save_byteAt hl ho hd.addrs j
    refine ⟨fun bn hbn => ?_, by rw [hd.size]; exact h2, fun j hj k i hc => ?_⟩
    · rw [save_ref hl ho hd.addrs]
      exact h1 bn (by rwa [hd.size] at hbn)
    · rw [hcont] at hj hc
      exact h3 j hj k i hc

def Dinode.withLinks (d : Dinode) (n : Int16) : Dinode := { d with nlink := n }

theorem Dinode.same_withLinks (d : Dinode) (n : Int16) : d.Same (d.withLinks n) := ⟨rfl, rfl, rfl⟩

theorem addLink_ok (hbufs : s.bufs = []) (n : Int16) : addLink cf q n s =
    .ok ((), s.save cf q ((s.icache q).toDinode.withLinks ((s.icache q).nlink + n))) := by
  unfold addLink
  rw [bind_of_ok (rfl : inode q s = .ok (s.icache q, s)), bind_of_ok (rfl : setInode q _ s = .ok ((), _))]
  exact iupdate_ok (by simp [hbufs]) _

/-! ## Entries -/

end Xv6.Disk
