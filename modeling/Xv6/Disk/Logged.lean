import Xv6.Disk.Rdwr

/-!
# What one write logs

The blocks that `writei` passes to `log_write` for a part of a `filewrite`: the data blocks, a block of the
bitmap for each new block, the indirect block and the block of the inode.
-/

open Xv6.Bytes Xv6.Cmd List

namespace Xv6.Disk

variable {cf : Conf} {s s' s1 s2 : State} {b c k m n bn off : Nat} {ip : Slot} {N : Finset Nat} {src : List UInt8}

/-! ## Allocation -/

theorem bread_logged {data : Block} (h : bread b s = .ok (data, s')) : s'.logged = s.logged := by
  unfold bread at h
  split at h
  · cases h
  · cases h
    rfl

theorem bzero_logged (h : bzero b s = .ok ((), s')) : s'.logged = s.logged ++ [b] := by
  obtain ⟨_, s1, hread, h⟩ := bind_ok h
  cases h
  exact congrArg (· ++ [b]) (bread_logged hread)

theorem scan_lt {data : Block} {bi : Nat} (h : scan cf data b k bi = some m) : m < BPB := by
  induction k generalizing bi with
  | zero => cases h
  | succ k ih =>
    rw [scan] at h
    split at h
    · next hbi =>
      split at h
      · cases h
        exact hbi.1
      · exact ih h
    · cases h

theorem ballocLoop_logged (hb : b % BPB = 0) (h : ballocLoop cf k b s = .ok (m, s')) :
    s'.logged = s.logged ++ [cf.bblock m, m] := by
  induction k generalizing b s with
  | zero => exact (throw_ok h).elim
  | succ k ih =>
    rw [ballocLoop] at h
    split at h
    · obtain ⟨data, s1, hread, h⟩ := bind_ok h
      have hlog := bread_logged hread
      cases hscan : scan cf data b BPB 0 with
      | some bi =>
        rw [hscan] at h
        obtain ⟨_, s2, h2, h⟩ := bind_ok h
        cases h2
        obtain ⟨_, s3, h3, h⟩ := bind_ok h
        cases h3
        obtain ⟨_, s4, h4, h⟩ := bind_ok h
        cases h
        rw [bzero_logged h4, (block_of_bit cf hb (scan_lt hscan)).1, ← hlog]
        exact append_assoc _ _ _
      | none =>
        rw [hscan] at h
        obtain ⟨_, s2, h2, h⟩ := bind_ok h
        cases h2
        rw [ih (by rw [Nat.add_mod_right]; exact hb) h]
        exact congrArg (· ++ _) hlog
    · exact (throw_ok h).elim

theorem balloc_logged (h : balloc cf s = .ok (m, s')) : s'.logged = s.logged ++ [cf.bblock m, m] :=
  ballocLoop_logged (Nat.zero_mod _) h

theorem addrOrNew_logged {i : Fin (NDIRECT + 1)} (h : addrOrNew cf ip i s = .ok (b, s')) :
    (s.icache ip).addrs i ≠ 0 ∧ s'.logged = s.logged ∨
      (s.icache ip).addrs i = 0 ∧ s'.logged = s.logged ++ [cf.bblock b, b] := by
  obtain ⟨x, s1, h1, h⟩ := bind_ok h
  cases h1
  split at h
  · next h0 =>
    obtain ⟨addr, s2, h2, h⟩ := bind_ok h
    have hlog := balloc_logged h2
    cases h
    exact .inr ⟨h0, hlog⟩
  · next h0 =>
    cases h
    exact .inl ⟨h0, rfl⟩

/-! ## `bmap` -/

/-- The places of the inode in slot `ip` that hold a block. -/
def held (s : State) (ip : Slot) : Finset Nat := refSet s.block (s.icache ip).addrs

theorem Rest.held_subset (h : Rest cf ip N s s') : held s ip ⊆ held s' ip := by
  intro k hk
  rw [held, mem_refSet] at hk ⊢
  rwa [h.keep k hk]

theorem Rest.held_lt (h : Rest cf ip N s s') (h0 : ref s.block (s.icache ip).addrs k = 0)
    (h1 : ref s'.block (s'.icache ip).addrs k ≠ 0) : (held s ip).card < (held s' ip).card := by
  refine Finset.card_lt_card (Finset.ssubset_iff_subset_ne.mpr ⟨h.held_subset, fun hc => ?_⟩)
  have hmem : k ∈ held s ip := hc ▸ mem_refSet.mpr h1
  exact mem_refSet.mp hmem h0

/-- From `s` to `s'`, the blocks in `D`, the indirect block and, for each block that the inode has got, one
block of the bitmap were logged. -/
def Logs (ip : Slot) (D : Finset Nat) (s s' : State) : Prop :=
  ∃ (new : List Nat) (B : Finset Nat), s'.logged = s.logged ++ new ∧
    (∀ c ∈ new, c ∈ D ∨ c ∈ B ∨ c = (s'.icache ip).addrs indirect ∧ c ≠ 0) ∧
    B.card + (held s ip).card ≤ (held s' ip).card

variable {D D' : Finset Nat}

theorem Logs.refl (s : State) : Logs ip D s s := ⟨[], ∅, by simp⟩

theorem Logs.trans (h : Logs ip D s s1) (h' : Logs ip D' s1 s2) (hr : Rest cf ip N s1 s2) : Logs ip (D ∪ D') s s2 := by
  obtain ⟨new, B, hlog, hnew, hcard⟩ := h
  obtain ⟨new', B', hlog', hnew', hcard'⟩ := h'
  refine ⟨new ++ new', B ∪ B', by rw [hlog', hlog, append_assoc], fun c hc => ?_, ?_⟩
  · rw [Finset.mem_union, Finset.mem_union]
    rcases mem_append.mp hc with hc | hc
    · rcases hnew c hc with hD | hB | ⟨hi, h0⟩
      · exact .inl (.inl hD)
      · exact .inr (.inl (.inl hB))
      · have hkeep := hr.keep NDIRECT
        rw [ref_indirect, ref_indirect, ← hi] at hkeep
        exact .inr (.inr ⟨(hkeep h0).symm, h0⟩)
    · rcases hnew' c hc with hD | hB | hi
      · exact .inl (.inr hD)
      · exact .inr (.inl (.inr hB))
      · exact .inr (.inr hi)
  · have := Finset.card_union_le B B'
    omega

theorem Logs.mono (h : Logs ip D s s') (hD : D ⊆ D') : Logs ip D' s s' := by
  obtain ⟨new, B, hlog, hnew, hcard⟩ := h
  exact ⟨new, B, hlog, fun c hc => (hnew c hc).imp_left (@hD c), hcard⟩

theorem Logs.concat (h : Logs ip D s s1) (hb : b ∈ D) (hlog : s2.logged = s1.logged ++ [b])
    (hcell : s2.icache = s1.icache) (hheld : held s2 ip = held s1 ip) : Logs ip D s s2 := by
  obtain ⟨new, B, hlog1, hnew, hcard⟩ := h
  refine ⟨new ++ [b], B, by rw [hlog, hlog1, append_assoc], fun c hc => ?_, hheld ▸ hcard⟩
  rw [hcell]
  rcases mem_append.mp hc with hc | hc
  · exact hnew c hc
  · exact .inl (mem_singleton.mp hc ▸ hb)

theorem addrOrNew_logs {i : Fin (NDIRECT + 1)} (hl : cf.Layout) (h : Open cf s ip) (hbufs : s.bufs = [])
    (hrun : addrOrNew cf ip i s = .ok (b, s')) :
    b = (s'.icache ip).addrs i ∧ b ≠ 0 ∧ Grown cf ip {i.val} s s' ∧ Logs ip {b} s s' := by
  have hend := addrOrNew_ends (N := {i.val}) (E := fun _ => True) i hl h hbufs (Finset.mem_singleton_self _) (.inl trivial)
  rw [Ends, hrun] at hend
  obtain ⟨hb, h0, hg⟩ := hend
  refine ⟨hb, h0, hg, ?_⟩
  rcases addrOrNew_logged hrun with ⟨-, hlog⟩ | ⟨hempty, hlog⟩
  · exact ⟨[], ∅, by simpa using hlog, by simp, by simpa using Finset.card_le_card hg.held_subset⟩
  · have hlt := hg.held_lt (k := i.val) (by rwa [ref_addrs]) (by rwa [ref_addrs, ← hb])
    refine ⟨[cf.bblock b, b], {cf.bblock b}, hlog, fun c hc => ?_, ?_⟩
    · rcases mem_pair.mp hc with rfl | rfl
      · exact .inr (.inl (Finset.mem_singleton_self _))
      · exact .inl (Finset.mem_singleton_self _)
    · rw [Finset.card_singleton]
      omega

theorem Logs.drop_indirect (h : Logs ip {(s'.icache ip).addrs indirect} s s') (h0 : (s'.icache ip).addrs indirect ≠ 0) :
    Logs ip ∅ s s' := by
  obtain ⟨new, B, hlog, hnew, hcard⟩ := h
  refine ⟨new, B, hlog, fun c hc => ?_, hcard⟩
  rcases hnew c hc with hD | hrest
  · obtain rfl := Finset.mem_singleton.mp hD
    exact .inr (.inr ⟨rfl, h0⟩)
  · exact .inr hrest

theorem bmap_logs (hl : cf.Layout) (h : Open cf s ip) (hbufs : s.bufs = []) (hbn : bn < MAXFILE)
    (hrun : bmap cf ip bn s = .ok (b, s')) : Logs ip {b} s s' := by
  by_cases hmap : ref s.block (s.icache ip).addrs (pos bn) = 0
  · unfold bmap at hrun
    split at hrun
    · exact (addrOrNew_logs hl h hbufs hrun).2.2.2
    · next hd =>
      rw [if_pos (by simp only [MAXFILE] at hbn; omega)] at hrun
      obtain ⟨ind, s1, h1, hrun⟩ := bind_ok hrun
      obtain ⟨hind, hne, hg, hlogs⟩ := addrOrNew_logs hl h hbufs h1
      subst hind
      have hend := bmap_entry (N := {pos bn}) (E := fun _ => True) hl hg.opened (hg.bufs.trans hbufs) hne
        (Nat.le_of_not_lt hd) hbn (Finset.mem_singleton_self _) (.inl trivial)
      rw [Ends, hrun] at hend
      obtain ⟨hb, h0, hg2⟩ := hend
      have hempty : ref s1.block (s1.icache ip).addrs (pos bn) = 0 := by
        rw [hg.only _ (by exact fun hc => pos_ne_indirect bn (Finset.mem_singleton.mp hc)), hmap]
      have hlt := hg2.held_lt hempty (hb ▸ h0)
      have hkeep := hg2.keep NDIRECT
      rw [ref_indirect, ref_indirect] at hkeep
      -- The second part logs a block of the bitmap, the new block and the indirect block.
      have hentry : Logs ip {b} s1 s' := by
        obtain ⟨data, s2, hread, hrun⟩ := bind_ok hrun
        have hlog := bread_logged hread
        split at hrun
        · obtain ⟨addr, s3, h3, hrun⟩ := bind_ok hrun
          have hlog3 := balloc_logged h3
          cases hrun
          refine ⟨[cf.bblock b, b, (s1.icache ip).addrs indirect], {cf.bblock b}, ?_, fun c hc => ?_, ?_⟩
          · change s3.logged ++ [_] = _
            rw [hlog3, hlog, append_assoc]
            rfl
          · simp only [mem_cons, not_mem_nil, or_false] at hc
            rcases hc with rfl | rfl | rfl
            · exact .inr (.inl (Finset.mem_singleton_self _))
            · exact .inl (Finset.mem_singleton_self _)
            · exact .inr (.inr ⟨(hkeep hne).symm, hne⟩)
          · rw [Finset.card_singleton]
            omega
        · cases hrun
          exact ⟨[], ∅, by simpa using hlog, by simp, by simpa using Nat.le_of_lt hlt⟩
      exact ((hlogs.drop_indirect hne).trans hentry hg2.toRest).mono (by simp)
  · rw [bmap_of_mapped hbufs hmap] at hrun
    cases hrun
    exact .refl s

/-! ## `writei` -/

/-- The `max` of `filewrite`. -/
def maxChunk : Nat := (MAXOPBLOCKS - 1 - 1 - 2) / 2 * BSIZE

/-- The number of blocks with bytes from `off` to `off + n`. -/
def spans (off n : Nat) : Nat := if n = 0 then 0 else (off + n - 1) / BSIZE - off / BSIZE + 1

theorem spans_step (hm : m = min n (BSIZE - off % BSIZE)) (hn : n ≠ 0) : 1 + spans (off + m) (n - m) ≤ spans off n := by
  rw [spans, spans, if_neg hn]
  split
  · omega
  · have h1 : (off + m) / BSIZE = off / BSIZE + 1 := by
      simp only [BSIZE] at *
      omega
    have h2 : off + m + (n - m) - 1 = off + n - 1 := by omega
    have h3 : (off + m) / BSIZE ≤ (off + n - 1) / BSIZE := Nat.div_le_div_right (by omega)
    rw [h2]
    omega

theorem log_held (h : Open cf s ip) (h0 : ref s.block (s.icache ip).addrs k ≠ 0) (hk : k ≠ NDIRECT) (data : Block) :
    held (s.log (ref s.block (s.icache ip).addrs k) data) ip = held s ip :=
  Finset.filter_congr fun l _ => by
    change ref _ (s.icache ip).addrs l ≠ 0 ↔ _
    rw [log_ref h h0 hk]

theorem writeLoop_logs (hl : cf.Layout) (k : Nat) (h : Open cf s ip) (hbufs : s.bufs = []) (hlen : src.length ≤ k)
    (hmax : off + src.length ≤ MAXFILE * BSIZE) (hrun : writeLoop cf ip k off src s = .ok ((), s')) :
    ∃ D : Finset Nat, D.card ≤ spans off src.length ∧ Logs ip D s s' := by
  induction k generalizing off src s with
  | zero =>
    cases hrun
    exact ⟨∅, Nat.zero_le _, .refl _⟩
  | succ k ih =>
    rw [writeLoop] at hrun
    split at hrun
    · cases hrun
      exact ⟨∅, Nat.zero_le _, .refl _⟩
    · next hz =>
      obtain ⟨m, hm⟩ : ∃ m, m = min src.length (BSIZE - off % BSIZE) := ⟨_, rfl⟩
      have hmpos : 0 < m ∧ m ≤ src.length := by
        simp only [BSIZE] at *
        omega
      have hdrop : (src.drop m).length = src.length - m := length_drop
      have hbn : off / BSIZE < MAXFILE := Nat.div_lt_of_lt_mul (by rw [Nat.mul_comm]; omega)
      rw [← hm] at hrun
      obtain ⟨b, s1, h1, hrun⟩ := bind_ok hrun
      have hend := bmap_ends (N := places off) (E := fun _ => True) hl h hbufs hbn (pos_mem_places off) indirect_mem_places
        (.inl trivial)
      have hlogs := bmap_logs hl h hbufs hbn h1
      rw [Ends, h1] at hend
      obtain ⟨hb, h0, hg⟩ := hend
      subst hb
      have hnot : ref s1.block (s1.icache ip).addrs (pos (off / BSIZE)) ∉ s1.bufs := by simp [hg.bufs, hbufs]
      rw [update_block (fun data => splice data (off % BSIZE) (src.take m))
        (fun _ => writeLoop cf ip k (off + m) (src.drop m)) hnot] at hrun
      have hk := pos_ne_indirect (off / BSIZE)
      obtain ⟨data, hdata⟩ : ∃ data, data = splice (s1.block (ref s1.block (s1.icache ip).addrs (pos (off / BSIZE))))
        (off % BSIZE) (src.take m) := ⟨_, rfl⟩
      rw [← hdata] at hrun
      have hframe := log_frame (N := places off) hg.opened h0 hk data hl
      have hround : Logs ip {ref s1.block (s1.icache ip).addrs (pos (off / BSIZE))} s (s1.log _ data) :=
        hlogs.concat (Finset.mem_singleton_self _) rfl rfl (log_held hg.opened h0 hk data)
      have hbufs2 := hframe.bufs.trans (hg.bufs.trans hbufs)
      have hmax2 : off + m + (src.drop m).length ≤ MAXFILE * BSIZE := by omega
      have hrest := writeLoop_ends (E := fun _ => True) hl k hframe.opened hbufs2 (by omega) hmax2 (Finset.Subset.refl _)
        (.inl trivial)
      rw [Ends, hrun] at hrest
      obtain ⟨D, hD, hlogs2⟩ := ih hframe.opened hbufs2 (by omega) hmax2 hrun
      refine ⟨_, ?_, hround.trans hlogs2 hrest.toRest⟩
      have hcard := Finset.card_union_le {ref s1.block (s1.icache ip).addrs (pos (off / BSIZE))} D
      have hspans := spans_step hm hz
      rw [Finset.card_singleton] at hcard
      rw [hdrop] at hD
      omega

theorem needs_new (hfull : Full s.block (s.icache ip).toDinode) (hoff : off ≤ (s.icache ip).size) (hn : n ≤ 3 * BSIZE) :
    (needs off n \ held s ip).card ≤ 4 := by
  have hsub : needs off n \ held s ip ⊆
      insert NDIRECT ((Finset.Ico ((off + (BSIZE - 1)) / BSIZE) ((off + (BSIZE - 1)) / BSIZE + 3)).image pos) := by
    intro k hk
    obtain ⟨hk, hnot⟩ := Finset.mem_sdiff.mp hk
    obtain ⟨j, hj, hp⟩ := Finset.mem_biUnion.mp hk
    rw [Finset.mem_Ico] at hj
    rw [held, mem_refSet, not_not] at hnot
    have hplace : k = NDIRECT ∨ k = pos (j / BSIZE) := by
      unfold places at hp
      unfold pos
      split at hp
      · next hd => exact .inr (by rw [if_pos hd]; exact Finset.mem_singleton.mp hp)
      · next hd =>
        rw [Finset.mem_insert, Finset.mem_singleton] at hp
        rwa [if_neg hd]
    rcases hplace with rfl | rfl
    · exact Finset.mem_insert_self _ _
    · refine Finset.mem_insert_of_mem (Finset.mem_image_of_mem _ (Finset.mem_Ico.mpr ?_))
      have hge : (s.icache ip).size ≤ j / BSIZE * BSIZE := by
        by_contra hc
        exact hfull _ (Nat.lt_of_not_le hc) hnot
      simp only [BSIZE] at *
      omega
  refine (Finset.card_le_card hsub).trans ((Finset.card_insert_le _ _).trans ?_)
  have := (Finset.card_image_le (s := Finset.Ico ((off + (BSIZE - 1)) / BSIZE) ((off + (BSIZE - 1)) / BSIZE + 3)) (f := pos))
  rw [Nat.card_Ico] at this
  omega

theorem Rest.held_le (h : Rest cf ip N s s') : (held s' ip).card ≤ (held s ip).card + (N \ held s ip).card := by
  refine (Finset.card_le_card fun k hk => ?_).trans (Finset.card_union_le _ _)
  rw [Finset.mem_union, Finset.mem_sdiff]
  by_cases hN : k ∈ N
  · by_cases hs : k ∈ held s ip
    · exact .inl hs
    · exact .inr ⟨hN, hs⟩
  · rw [held, mem_refSet, h.only k hN] at hk
    exact .inl (mem_refSet.mpr hk)

theorem Logs.card_le (h : Logs ip D s s') (hr : Rest cf ip (needs off n) s s') (hD : D.card ≤ spans off n)
    (hfull : Full s.block (s.icache ip).toDinode) (hoff : off ≤ (s.icache ip).size) (hn : n ≤ 3 * BSIZE) :
    ∃ new, s'.logged = s.logged ++ new ∧ new.toFinset.card ≤ 9 := by
  obtain ⟨new, B, hlog, hnew, hcard⟩ := h
  refine ⟨new, hlog, ?_⟩
  have hsub : new.toFinset ⊆ insert ((s'.icache ip).addrs indirect) (D ∪ B) := by
    intro c hc
    rw [Finset.mem_insert, Finset.mem_union]
    rcases hnew c (mem_toFinset.mp hc) with hD | hB | hi
    · exact .inr (.inl hD)
    · exact .inr (.inr hB)
    · exact .inl hi.1
  have h1 := (Finset.card_le_card hsub).trans (Finset.card_insert_le _ _)
  have h2 := Finset.card_union_le D B
  have h3 := hr.held_le
  have h4 := needs_new hfull hoff hn
  have h5 : spans off n ≤ 4 := by
    unfold spans
    split
    · exact Nat.zero_le _
    · simp only [BSIZE] at *
      omega
  omega

theorem resize_logged {c : Prop} [Decidable c] {x : Inode}
    (h : (when c (do setInode ip x; iupdate cf ip) : K Unit) s = .ok ((), s')) :
    ∃ last, s'.logged = s.logged ++ last ∧ last.length ≤ 1 := by
  unfold when at h
  split at h
  · obtain ⟨_, s1, h1, h⟩ := bind_ok h
    cases h1
    obtain ⟨y, s2, h2, h⟩ := bind_ok h
    cases h2
    obtain ⟨data, s3, h3, h⟩ := bind_ok h
    have hlog := bread_logged h3
    cases h
    exact ⟨[_], congrArg (· ++ _) hlog, Nat.le_refl _⟩
  · cases h
    exact ⟨[], by simp⟩

/-- One part of a `filewrite` logs at most `MAXOPBLOCKS` different blocks. -/
theorem writei_logged {r : Int} (hl : cf.Layout) (h : Open cf s ip) (hbufs : s.bufs = [])
    (hfull : Full s.block (s.icache ip).toDinode) (hlen : src.length ≤ maxChunk)
    (hrun : writei cf ip src off s = .ok (r, s')) :
    ∃ new, s'.logged = s.logged ++ new ∧ new.toFinset.card ≤ MAXOPBLOCKS := by
  have hnone : s' = s → ∃ new, s'.logged = s.logged ++ new ∧ new.toFinset.card ≤ MAXOPBLOCKS := by
    rintro rfl
    exact ⟨[], by simp⟩
  unfold writei at hrun
  obtain ⟨x, s1, h1, hrun⟩ := bind_ok hrun
  cases h1
  split at hrun
  · cases hdev : devsw cf.write (s.icache ip).major <;> rw [hdev] at hrun <;> exact hnone (Prod.mk.inj (pure_ok hrun)).2
  · split at hrun
    · exact hnone (Prod.mk.inj (pure_ok hrun)).2
    · next hwrap =>
      split at hrun
      · exact hnone (Prod.mk.inj (pure_ok hrun)).2
      · next hmax =>
        have hn : src.length ≤ 3 * BSIZE := hlen
        have hsize := hfull.size_le
        have hend : off + src.length ≤ MAXFILE * BSIZE := by
          simp only [u32, MAXFILE, NDIRECT, NINDIRECT, BSIZE] at *
          omega
        obtain ⟨_, s2, h2, hrun⟩ := bind_ok hrun
        have hfill := writeLoop_ends (E := fun _ => True) hl src.length h hbufs (Nat.le_refl _) hend (Finset.Subset.refl _)
          (.inl trivial)
        rw [Ends, h2] at hfill
        obtain ⟨D, hD, hlogs⟩ := writeLoop_logs hl src.length h hbufs (Nat.le_refl _) hend h2
        obtain ⟨new, hlog, hcard⟩ := hlogs.card_le hfill.toRest hD hfull (by omega) hn
        obtain ⟨x, s3, h3, hrun⟩ := bind_ok hrun
        cases h3
        obtain ⟨_, s4, h4, hrun⟩ := bind_ok hrun
        obtain ⟨-, rfl⟩ := Prod.mk.inj (pure_ok hrun)
        obtain ⟨last, hlast, hone⟩ := resize_logged h4
        refine ⟨new ++ last, by rw [hlast, hlog, List.append_assoc], ?_⟩
        rw [List.toFinset_append]
        have h5 := Finset.card_union_le new.toFinset last.toFinset
        have h6 := last.toFinset_card_le
        simp only [MAXOPBLOCKS]
        omega

/-- Three bytes over the end of the first block of the root directory. -/
theorem writei_logged_fresh : ∃ s' new, writei sample rootSlot [1, 2, 3] 511 fresh = .ok (3, s') ∧
    s'.logged = fresh.logged ++ new ∧ new.toFinset.card ≤ MAXOPBLOCKS := by
  have hroom : Room sample (needs 511 3) fresh rootSlot := by
    unfold Room
    decide +kernel
  obtain ⟨s', hs, -⟩ : ∃ s', writei sample rootSlot [1, 2, 3] 511 fresh = .ok (3, s') ∧ _ :=
    writei_spec sample_layout fresh_ready (by decide) (by decide) hroom
  obtain ⟨new, hnew⟩ := writei_logged sample_layout fresh_ready.toOpen rfl fresh_ready.full (by decide) hs
  exact ⟨s', new, hs, hnew⟩

end Xv6.Disk
