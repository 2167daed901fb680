import Xv6.Disk.Names

/-!
# The inode cache

`iget`, `idup`, `ilock`, `iunlock` and `iput` by a process that runs alone. What it holds is a list of
references and a list of locks, and apart from these the cache is as it was.
-/

open Xv6.Bytes Xv6.Cmd Function List

namespace Xv6.Disk

variable {cf : Conf} {s0 s s' : State} {L hs : List Slot} {q r ip : Slot} {i inum : Nat} {E : Stop → Prop} {x : Inode}

/-- The inode is as on disk. -/
structure Inode.Loaded (cf : Conf) (block : Nat → Block) (x : Inode) : Prop where
  bound : x.inum < cf.ninodes
  data : x.toDinode = dinode cf block x.inum
  type : x.type ≠ 0

/-- The slots in use hold different inodes, and what is valid is as on disk. -/
structure Cache (cf : Conf) (s : State) : Prop where
  unique : ∀ q r, 0 < (s.icache q).ref → 0 < (s.icache r).ref → (s.icache q).inum = (s.icache r).inum → q = r
  loaded : ∀ q, 0 < (s.icache q).ref → (s.icache q).valid = true → (s.icache q).Loaded cf s.block

/-- `s` is `s0` with one more reference for each slot of `hs`, and the slots of `L` locked. -/
structure From (cf : Conf) (s0 : State) (L hs : List Slot) (s : State) : Prop where
  same : s = { s0 with icache := s.icache }
  cache : Cache cf s
  refs : ∀ q, (s.icache q).ref = (s0.icache q).ref + hs.count q
  inums : ∀ q, 0 < (s0.icache q).ref → (s.icache q).inum = (s0.icache q).inum
  valids : ∀ q, 0 < (s0.icache q).ref → (s0.icache q).valid = true → (s.icache q).valid = true
  locks : ∀ q, (s.icache q).locked = decide (q ∈ L)
  locked_ref : ∀ q ∈ L, 0 < (s.icache q).ref

namespace From

theorem start (hc : Cache cf s) (hl : ∀ q, (s.icache q).locked = decide (q ∈ L))
    (hr : ∀ q ∈ L, 0 < (s.icache q).ref) : From cf s L [] s :=
  ⟨rfl, hc, fun q => by simp, fun _ _ => rfl, fun _ _ hv => hv, hl, hr⟩

variable (h : From cf s0 L hs s)

include h

theorem block : s.block = s0.block := by rw [h.same]

theorem bufs : s.bufs = s0.bufs := by rw [h.same]

theorem held_ref (hq : q ∈ hs) : 0 < (s.icache q).ref := by
  have h1 := h.refs q
  have h2 := count_pos_iff.mpr hq
  omega

theorem reorder {hs' : List Slot} (hp : hs'.Perm hs) : From cf s0 L hs' s :=
  { h with refs := fun q => by rw [h.refs, hp.count_eq] }

theorem set {L' hs' : List Slot} (hrefs : x.ref = (s0.icache q).ref + hs'.count q)
    (hcount : ∀ r, r ≠ q → hs'.count r = hs.count r) (hinum : 0 < (s0.icache q).ref → x.inum = (s0.icache q).inum)
    (hval : 0 < (s0.icache q).ref → (s0.icache q).valid = true → x.valid = true)
    (hlock : x.locked = decide (q ∈ L')) (hlocks : ∀ r, r ≠ q → (r ∈ L' ↔ r ∈ L)) (hlref : q ∈ L' → 0 < x.ref)
    (huniq : ∀ r, r ≠ q → 0 < x.ref → 0 < (s.icache r).ref → (s.icache r).inum ≠ x.inum)
    (hvalid : 0 < x.ref → x.valid = true → x.Loaded cf s.block) :
    From cf s0 L' hs' (s.setInode q x) := by
  have hself : (s.setInode q x).icache q = x := update_self _ _ _
  have hother : ∀ r, r ≠ q → (s.setInode q x).icache r = s.icache r := fun r hr => update_of_ne hr _ _
  refine ⟨?_, ⟨fun p r hp hr hpr => ?_, fun p hp hv => ?_⟩, fun p => ?_, fun p hp => ?_, fun p hp hv => ?_,
    fun p => ?_, fun p hp => ?_⟩
  · have := h.same
    unfold State.setInode
    rw [this]
  · by_cases hpq : p = q
    · by_cases hrq : r = q
      · exact hpq.trans hrq.symm
      · rw [hpq, hself] at hp hpr
        rw [hother r hrq] at hr hpr
        exact absurd hpr.symm (huniq r hrq hp hr)
    · rw [hother p hpq] at hp hpr
      by_cases hrq : r = q
      · rw [hrq, hself] at hr hpr
        exact absurd hpr (huniq p hpq hr hp)
      · rw [hother r hrq] at hr hpr
        exact h.cache.unique p r hp hr hpr
  · by_cases hpq : p = q
    · rw [hpq, hself] at hp hv ⊢
      exact hvalid hp hv
    · rw [hother p hpq] at hp hv ⊢
      exact h.cache.loaded p hp hv
  · by_cases hpq : p = q
    · rw [hpq, hself, hrefs]
    · rw [hother p hpq, h.refs, hcount p hpq]
  · by_cases hpq : p = q
    · rw [hpq] at hp ⊢
      rw [hself, hinum hp]
    · rw [hother p hpq, h.inums p hp]
  · by_cases hpq : p = q
    · rw [hpq] at hp hv ⊢
      rw [hself, hval hp hv]
    · rw [hother p hpq, h.valids p hp hv]
  · by_cases hpq : p = q
    · rw [hpq, hself, hlock]
    · rw [hother p hpq, h.locks]
      exact decide_eq_decide.mpr (hlocks p hpq).symm
  · by_cases hpq : p = q
    · rw [hpq] at hp ⊢
      rw [hself]
      exact hlref hp
    · rw [hother p hpq]
      exact h.locked_ref p ((hlocks p hpq).mp hp)

theorem setUsed {L' hs' : List Slot} (hpos : 0 < (s.icache q).ref) (hrefs : x.ref = (s0.icache q).ref + hs'.count q)
    (hcount : ∀ r, r ≠ q → hs'.count r = hs.count r) (hinum : x.inum = (s.icache q).inum)
    (hval : (s.icache q).valid = true → x.valid = true) (hlock : x.locked = decide (q ∈ L')) (hlocks : ∀ r, r ≠ q → (r ∈ L' ↔ r ∈ L)) (hlref : q ∈ L' → 0 < x.ref)
    (hvalid : x.valid = true → x.Loaded cf s.block) :
    From cf s0 L' hs' (s.setInode q x) := by
  refine h.set hrefs hcount (fun h0 => hinum.trans (h.inums q h0)) (fun h0 hv => hval (h.valids q h0 hv)) hlock hlocks hlref (fun r hr _ hr0 hc => ?_)
    fun _ hv => hvalid hv
  exact hr (h.cache.unique r q hr0 hpos (hc.trans hinum))

theorem valid_data (hpos : 0 < (s.icache q).ref) (hi : x.inum = (s.icache q).inum)
    (hd : x.toDinode = (s.icache q).toDinode) (hv : (s.icache q).valid = true) : x.Loaded cf s.block := by
  obtain ⟨h1, h2, h3⟩ := h.cache.loaded q hpos hv
  exact ⟨hi ▸ h1, by rw [hd, hi, h2], by rw [hd]; exact h3⟩

theorem toDinode_eq (hc : Cache cf s0) (hpos : 0 < (s0.icache q).ref) (hv : (s0.icache q).valid = true) :
    (s.icache q).toDinode = (s0.icache q).toDinode := by
  have hpos' : 0 < (s.icache q).ref := by
    rw [h.refs]
    omega
  rw [(h.cache.loaded q hpos' (h.valids q hpos hv)).data, (hc.loaded q hpos hv).data, h.block, h.inums q hpos]

end From

theorem From.own (hc : Cache cf s) (hl : ∀ q, (s.icache q).locked = decide (q ∈ L))
    (hr : ∀ q ∈ L, 0 < (s.icache q).ref) (hpos : 0 < (s.icache q).ref) :
    From cf (s.setInode q { s.icache q with ref := (s.icache q).ref - 1 }) L [q] s := by
  have hother : ∀ r, r ≠ q → (s.setInode q { s.icache q with ref := (s.icache q).ref - 1 }).icache r = s.icache r :=
    fun r hr => update_of_ne hr _ _
  have hself : (s.setInode q { s.icache q with ref := (s.icache q).ref - 1 }).icache q =
      { s.icache q with ref := (s.icache q).ref - 1 } := update_self _ _ _
  refine ⟨rfl, hc, fun r => ?_, fun r _ => ?_, fun r _ hv => ?_, hl, hr⟩
  · by_cases h : r = q
    · subst h
      rw [hself, count_singleton_self]
      dsimp only
      omega
    · rw [hother r h, count_singleton, if_neg (by simpa using Ne.symm h), Nat.add_zero]
  · by_cases h : r = q
    · subst h
      rw [hself]
    · rw [hother r h]
  · by_cases h : r = q
    · subst h
      rwa [hself] at hv
    · rwa [hother r h] at hv

/-! ## References -/

theorem findSlot_some (h : s.findSlot inum = some q) :
    (0 < (s.icache q).ref ∧ (s.icache q).inum = inum) ∨
    ((s.icache q).ref = 0 ∧ ∀ r, 0 < (s.icache r).ref → (s.icache r).inum ≠ inum) := by
  unfold State.findSlot at h
  cases h1 : (List.finRange NINODE).find? fun i => 0 < (s.icache i).ref ∧ (s.icache i).inum = inum with
  | some r =>
    rw [h1] at h
    obtain rfl := Option.some.inj h
    exact .inl (by simpa using List.find?_some h1)
  | none =>
    rw [h1] at h
    refine .inr ⟨by simpa using List.find?_some h, fun r hr hc => ?_⟩
    have := List.find?_eq_none.mp h1 r (mem_finRange r)
    simp only [decide_eq_true_eq, not_and] at this
    exact this hr hc

theorem findSlot_of_free (h : (s.icache r).ref = 0) (inum : Nat) : ∃ q, s.findSlot inum = some q := by
  have hfree : ((List.finRange NINODE).find? fun i => (s.icache i).ref = 0).isSome := by
    rw [List.find?_isSome]
    exact ⟨r, mem_finRange r, by simpa using h⟩
  obtain ⟨q, hq⟩ := Option.isSome_iff_exists.mp hfree
  unfold State.findSlot
  rw [hq]
  cases (List.finRange NINODE).find? fun i => 0 < (s.icache i).ref ∧ (s.icache i).inum = inum with
  | some p => exact ⟨p, rfl⟩
  | none => exact ⟨q, rfl⟩

/-- The slots that are not in use. -/
def spare (s : State) : Finset Slot := (List.finRange NINODE).toFinset.filter fun q => (s.icache q).ref = 0

theorem mem_spare : q ∈ spare s ↔ (s.icache q).ref = 0 := by simp [spare]

theorem From.exists_free (h : From cf s0 L hs s) (hroom : hs.length < (spare s0).card) : ∃ q, (s.icache q).ref = 0 := by
  have hcard : hs.toFinset.card < (spare s0).card := Nat.lt_of_le_of_lt hs.toFinset_card_le hroom
  obtain ⟨q, hq, hnot⟩ := Finset.exists_mem_notMem_of_card_lt_card hcard
  refine ⟨q, ?_⟩
  rw [mem_toFinset] at hnot
  rw [h.refs, mem_spare.mp hq, count_eq_zero.mpr hnot]

theorem iget_ends (h : From cf s0 L hs s) (inum : Nat)
    (hroom : E (.panic "iget: no inodes") ∨ hs.length < (spare s0).card) :
    Ends E (iget inum) s fun q s' => From cf s0 L (q :: hs) s' ∧ (s'.icache q).inum = inum ∧
      (0 < (s.icache q).ref → (s.icache q).inum = inum) ∧ ((s'.icache q).valid = true → 2 ≤ (s'.icache q).ref) ∧
      ∀ r, 0 < (s.icache r).ref → r ≠ q → s'.icache r = s.icache r := by
  have hcount : ∀ q r : Slot, r ≠ q → (q :: hs).count r = hs.count r := fun q r hr => count_cons_of_ne hr.symm
  unfold Ends iget
  cases hf : s.findSlot inum with
  | none =>
    rcases hroom with hE | hroom
    · exact hE
    · obtain ⟨q, hq⟩ := h.exists_free hroom
      obtain ⟨p, hp⟩ := findSlot_of_free hq inum
      rw [hf] at hp
      cases hp
  | some q =>
    rcases findSlot_some hf with ⟨hpos, hinum⟩ | ⟨hzero, hnone⟩
    · dsimp only
      rw [if_pos hpos]
      refine ⟨h.setUsed hpos ?_ (hcount q) rfl id (h.locks q) (fun _ _ => Iff.rfl) (fun _ => Nat.succ_pos _)
        (h.valid_data hpos rfl rfl), ?_, fun _ => hinum, fun _ => ?_, fun r _ hr => update_of_ne hr _ _⟩
      · rw [count_cons_self, ← Nat.add_assoc, ← h.refs]
      · simpa [State.setInode] using hinum
      · simpa [State.setInode, Nat.one_le_iff_ne_zero, Nat.pos_iff_ne_zero] using hpos
    · dsimp only
      rw [if_neg (by omega)]
      have hnot : q ∉ L := fun hc => by
        have := h.locked_ref q hc
        omega
      have href := h.refs q
      refine ⟨h.set ?_ (hcount q) (fun h0 => by omega) (fun h0 => by omega) (h.locks q) (fun _ _ => Iff.rfl) (fun hc => absurd hc hnot)
        (fun r _ _ hr => hnone r hr) (fun _ hv => by cases hv), ?_, fun hc => by omega, fun hv => ?_, fun r _ hr => update_of_ne hr _ _⟩
      · rw [count_cons_self]
        dsimp only
        omega
      · simp [State.setInode]
      · simp [State.setInode] at hv

theorem idup_ends (h : From cf s0 L hs s) (hpos : 0 < (s.icache q).ref) :
    Ends E (idup q) s fun _ s' => From cf s0 L (q :: hs) s' ∧ (s'.icache q).inum = (s.icache q).inum := by
  refine ends_of_ok (bind_of_ok rfl) ⟨h.setUsed hpos ?_ (fun r hr => count_cons_of_ne hr.symm) rfl id (h.locks q)
    (fun _ _ => Iff.rfl) (fun _ => Nat.succ_pos _) (h.valid_data hpos rfl rfl), by simp [State.setInode]⟩
  rw [count_cons_self, ← Nat.add_assoc, ← h.refs]

/-! ## Locks -/

theorem acquiresleep_locked (h : (s.icache q).locked = true) : acquiresleep q s = .error .block := by
  simp [acquiresleep, h]

theorem ilock_ends (h : From cf s0 L hs s) (hbufs : s0.bufs = []) (hpos : 0 < (s.icache q).ref) (hq : q ∉ L)
    (hbound : (s.icache q).inum < cf.ninodes)
    (htype : E (.panic "ilock: no type") ∨ (dinode cf s.block (s.icache q).inum).type ≠ 0) :
    Ends E (ilock cf q) s fun _ s' => From cf s0 (q :: L) hs s' ∧ (s'.icache q).valid = true ∧
      (s'.icache q).inum = (s.icache q).inum ∧ ∀ r, r ≠ q → s'.icache r = s.icache r := by
  have hunlocked : (s.icache q).locked = false := by simpa [hq] using h.locks q
  have hlocks : ∀ r, r ≠ q → (r ∈ q :: L ↔ r ∈ L) := fun r hr => by simp [hr]
  have hlock : From cf s0 (q :: L) hs (s.setInode q { s.icache q with locked := true }) :=
    h.setUsed hpos (h.refs q) (fun _ _ => rfl) rfl id (by simp) hlocks (fun _ => hpos) (h.valid_data hpos rfl rfl)
  have hself : (s.setInode q { s.icache q with locked := true }).icache q = { s.icache q with locked := true } :=
    update_self _ _ _
  have hacq : acquiresleep q s = .ok ((), s.setInode q { s.icache q with locked := true }) := by
    simp [acquiresleep, hunlocked]
  unfold ilock
  refine ends_bind_of_ok (rfl : inode q s = .ok (s.icache q, s)) ?_
  rw [if_neg (by omega)]
  refine ends_bind_of_ok hacq (ends_bind_of_ok (rfl : inode q _ = .ok (_, _)) ?_)
  rw [hself]
  by_cases hv : (s.icache q).valid = true
  · rw [if_pos hv]
    exact ends_pure ⟨hlock, by rw [hself]; exact hv, by rw [hself], fun r hr => update_of_ne hr _ _⟩
  · rw [if_neg hv]
    have hread : bread (cf.iblock (s.icache q).inum) (s.setInode q { s.icache q with locked := true }) = .ok (_, _) :=
      bread_of_free (by rw [hlock.bufs, hbufs]; exact not_mem_nil)
    refine ends_bind_of_ok hread (ends_bind_of_ok (rfl : brelse _ _ = .ok ((), _)) ?_)
    rw [erase_cons_head]
    refine ends_bind_of_ok (rfl : setInode q _ _ = .ok ((), _)) ?_
    by_cases ht : (dinode cf s.block (s.icache q).inum).type = 0
    · rcases htype with hE | hne
      · rw [when, if_pos (by exact ht)]
        exact ends_throw hE
      · exact absurd ht hne
    · rw [when, if_neg (by exact ht)]
      have hpos' : 0 < ((s.setInode q { s.icache q with locked := true }).icache q).ref := by rw [hself]; exact hpos
      refine ends_pure ⟨hlock.setUsed hpos' (h.refs q) (fun _ _ => rfl) (by rw [hself]) (fun _ => rfl) (by simp) (fun _ _ => Iff.rfl)
        (fun _ => hpos) (fun _ => ⟨hbound, rfl, ht⟩), ?_, ?_, fun r hr => ?_⟩
      · simp [State.setInode]
      · simp [State.setInode]
      · exact (update_of_ne hr _ _).trans (update_of_ne hr _ _)

theorem iunlock_ends (h : From cf s0 (q :: L) hs s) (hq : q ∉ L) :
    Ends E (iunlock q) s fun _ s' => From cf s0 L hs s' ∧ (s'.icache q).inum = (s.icache q).inum ∧
      (s'.icache q).valid = (s.icache q).valid ∧ ∀ r, r ≠ q → s'.icache r = s.icache r := by
  have hpos := h.locked_ref q (mem_cons_self ..)
  have hlocked : (s.icache q).locked = true := by simpa using h.locks q
  unfold iunlock
  refine ends_bind_of_ok (rfl : inode q s = .ok (s.icache q, s)) ?_
  rw [if_neg (by simp [hlocked]; omega)]
  refine ends_of_ok (rfl : releasesleep q s = .ok ((), _)) ⟨h.setUsed hpos (h.refs q) (fun _ _ => rfl) rfl id (by simp [hq])
    (fun r hr => by simp [hr]) (fun hc => absurd hc hq) (h.valid_data hpos rfl rfl), ?_, ?_, fun r hr => update_of_ne hr _ _⟩
  · simp [State.setInode]
  · simp [State.setInode]

theorem iput_locked {P : Unit → State → Prop} (h : (s.icache q).locked = true) (hE : E .block) :
    Ends E (iput cf q) s P := by
  unfold Ends iput
  rw [bind_of_error (acquiresleep_locked h)]
  exact hE

theorem iput_ends (h : From cf s0 L (q :: hs) s) (hq : q ∉ L)
    (hlive : ¬ ((s.icache q).valid = true ∧ (s.icache q).nlink = 0 ∧ (s.icache q).ref = 1)) :
    Ends E (iput cf q) s fun _ s' => From cf s0 L hs s' ∧ (s'.icache q).inum = (s.icache q).inum ∧
      ∀ r, r ≠ q → s'.icache r = s.icache r := by
  have hpos := h.held_ref (mem_cons_self ..)
  have hunlocked : (s.icache q).locked = false := by simpa [hq] using h.locks q
  have href := h.refs q
  rw [count_cons_self] at href
  have hend : From cf s0 L hs (s.setInode q { s.icache q with ref := (s.icache q).ref - 1 }) := by
    refine h.setUsed hpos ?_ (fun r hr => (count_cons_of_ne hr.symm).symm) rfl id (h.locks q) (fun _ _ => Iff.rfl)
      (fun hc => absurd hc hq) (h.valid_data hpos rfl rfl)
    dsimp only
    omega
  have hacq : acquiresleep q s = .ok ((), s.setInode q { s.icache q with locked := true }) := by
    simp [acquiresleep, hunlocked]
  have hself : (s.setInode q { s.icache q with locked := true }).icache q = { s.icache q with locked := true } :=
    update_self _ _ _
  -- The lock is taken and released in between.
  have hrel : releasesleep q (s.setInode q { s.icache q with locked := true }) = .ok ((), s) := by
    simp [releasesleep, State.setInode, ← hunlocked]
  unfold iput
  refine ends_bind_of_ok hacq (ends_bind_of_ok (rfl : inode q _ = .ok (_, _)) ?_)
  rw [hself, when, if_neg hlive]
  refine ends_bind_of_ok (pure_apply _ _) (ends_bind_of_ok hrel ?_)
  refine ends_of_ok (bind_of_ok (rfl : inode q s = .ok (s.icache q, s))) ⟨hend, ?_, fun r hr => update_of_ne hr _ _⟩
  simp [State.setInode]

/-! ## Writing an inode that is locked -/

theorem Rest.cache {N : Finset Nat} (h : Rest cf ip N s s') (hc : Cache cf s) (hpos : 0 < (s.icache ip).ref)
    (hd : dinode cf s'.block (s'.icache ip).inum = (s'.icache ip).toDinode) : Cache cf s' := by
  have hcell : ∀ q, (s'.icache q).ref = (s.icache q).ref ∧ (s'.icache q).inum = (s.icache q).inum := by
    intro q
    by_cases hq : q = ip
    · subst hq
      rw [h.cell]
      exact ⟨rfl, rfl⟩
    · rw [h.icache q hq]
      exact ⟨rfl, rfl⟩
  refine ⟨fun q r hq hr heq => ?_, fun q hq hv => ?_⟩
  · rw [(hcell q).1] at hq
    rw [(hcell r).1] at hr
    rw [(hcell q).2, (hcell r).2] at heq
    exact hc.unique q r hq hr heq
  · by_cases hqi : q = ip
    · subst hqi
      exact ⟨h.opened.inum, hd.symm, h.opened.type⟩
    · rw [h.icache q hqi] at hq hv ⊢
      obtain ⟨h1, h2, h3⟩ := hc.loaded q hq hv
      refine ⟨h1, ?_, h3⟩
      rw [h.disk _ h1 fun heq => hqi (hc.unique q ip hq hpos heq), h2]

end Xv6.Disk
