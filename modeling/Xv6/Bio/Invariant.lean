import Xv6.Bio.Code

/-!
# The invariant of the buffer cache

`refcnt` counts the process that has the buffer and those on their way to it or from it. A buffer that
somebody counts on keeps its block. What a block holds, as a plain disk would have it, is in its buffer,
or on the disk when the buffer is not dirty.
-/

open Xv6.Circle Xv6.Run Function List

namespace Xv6.Bio

variable {ι β : Type} {d : Nat → β} {s s' : State ι β} {i j : ι} {k : Fin NBUF} {pc : Pc}

/-- The contents of the blocks after everything that was stored, on a disk that started as `d`. -/
def State.plain (s : State ι β) (d : Nat → β) : Nat → β := Writes.apply s.stores d

/-- The process has a reference to the buffer that is not its lock. -/
def Pc.refers (k : Fin NBUF) : Pc → Bool
  | .get k' _ _ => k' = k
  | .rel k' => k' = k
  | _ => false

/-- The references to a buffer. -/
def State.refs [Fintype ι] (s : State ι β) (k : Fin NBUF) : Nat :=
  (s.lock k).isSome.toNat + ∑ i, ((s.pc i).refers k).toNat

/-- Who counts on a buffer. -/
structure Refs [Fintype ι] (s : State ι β) : Prop where
  linked : ∃ l, Linked s.links l ∧ ∀ k, k ∈ l
  count : ∀ k, (s.buf k).refcnt = s.refs k
  /-- A process in `bread` has the buffer of the block it reads. -/
  names : ∀ i k dev b, s.pc i = .get k dev b ∨ s.pc i = .fill k dev b →
    (s.buf k).dev = dev ∧ (s.buf k).blockno = b
  owner : ∀ i k dev b, s.pc i = .fill k dev b → s.lock k = some i

/-- What the buffers hold. -/
structure Data (d : Nat → β) (s : State ι β) : Prop where
  unique : ∀ k k', (s.buf k).dev ≠ 0 → (s.buf k').dev = (s.buf k).dev →
    (s.buf k').blockno = (s.buf k).blockno → k' = k
  held : ∀ i k, s.lock k = some i → (s.buf k).valid = true ∨ ∃ dev b, s.pc i = .fill k dev b
  valid : ∀ k, (s.buf k).valid = true → (s.buf k).dev = ROOTDEV
  dirty : ∀ k, (s.buf k).dirty = true → (s.buf k).valid = true
  touched : ∀ k, s.touched k = true → (s.buf k).valid = true ∧ s.lock k ≠ none
  clean : ∀ b, (∀ k, (s.buf k).dev = ROOTDEV → (s.buf k).blockno = b → (s.buf k).dirty = false) →
    s.disk b = s.plain d b
  data : ∀ k, (s.buf k).valid = true → s.touched k = false → (s.buf k).data = s.plain d (s.buf k).blockno

/-! ## The list and the references -/

theorem linked_binit (p : Links (Fin NBUF)) : ∃ l, Linked (binit p) l ∧ ∀ k, k ∈ l := by
  have hloop : ∀ (ks l : List (Fin NBUF)) (q : Links (Fin NBUF)), Linked q l → (ks ++ l).Nodup →
      ∃ l', Linked (ks.foldl Links.pushFront q) l' ∧ ∀ k ∈ ks ++ l, k ∈ l' := by
    intro ks
    induction ks with
    | nil => exact fun l q hq _ => ⟨l, hq, fun k hk => hk⟩
    | cons k ks ih =>
      intro l q hq hnd
      rw [cons_append, nodup_cons] at hnd
      have hkl : k ∉ l := fun hk => hnd.1 (by simp [hk])
      have hnd' : (ks ++ k :: l).Nodup := nodup_middle.mpr (nodup_cons.mpr hnd)
      obtain ⟨l', hl', hall⟩ := ih (k :: l) _ (linked_pushFront hq hkl) hnd'
      refine ⟨l', hl', fun x hx => hall x ?_⟩
      simp only [cons_append, mem_cons, mem_append] at hx ⊢
      tauto
  have hempty : Linked { next := update p.next none none
                         prev := update p.prev none none } [] :=
    ⟨nodup_nil, update_self none none p.next, update_self none none p.prev⟩
  obtain ⟨l, hl, hall⟩ := hloop (List.finRange NBUF) [] _ hempty (by simpa using nodup_finRange NBUF)
  exact ⟨l, hl, fun k => hall k (by simp)⟩

theorem update_field {γ : Type} {b : Buf β} (hbuf : s'.buf = update s.buf k b) (f : Buf β → γ)
    (h : f b = f (s.buf k)) (k' : Fin NBUF) : f (s'.buf k') = f (s.buf k') := by
  rw [hbuf]
  by_cases hk : k' = k
  · rw [hk, update_self, h]
  · rw [update_of_ne hk]

section Refs

variable [Fintype ι]

theorem Refs.free (h : Refs s) (hk : (s.buf k).refcnt = 0) :
    s.lock k = none ∧ ∀ i, (s.pc i).refers k = false := by
  have hc := (h.count k).symm.trans hk
  unfold State.refs at hc
  obtain ⟨hlock, hsum⟩ := Nat.add_eq_zero_iff.mp hc
  refine ⟨by simpa using hlock, fun i => ?_⟩
  have := (Finset.sum_eq_zero_iff.mp hsum) i (Finset.mem_univ i)
  simpa using this

theorem Refs.used {dev b : Nat} (h : Refs s) (hj : s.pc j = .get k dev b ∨ s.pc j = .fill k dev b) :
    (s.buf k).refcnt ≠ 0 := by
  intro hk
  obtain ⟨hlock, hrefers⟩ := h.free hk
  rcases hj with hj | hj
  · have := hrefers j
    rw [hj] at this
    simp [Pc.refers] at this
  · rw [h.owner j k dev b hj] at hlock
    cases hlock

variable [DecidableEq ι]

theorem sum_refers_update (f : ι → Pc) (i : ι) (pc : Pc) (k : Fin NBUF) :
    (∑ j, ((update f i pc j).refers k).toNat) + ((f i).refers k).toNat =
      (∑ j, ((f j).refers k).toNat) + (pc.refers k).toNat := by
  rw [← Finset.add_sum_erase Finset.univ _ (Finset.mem_univ i),
    ← Finset.add_sum_erase Finset.univ (fun j => ((f j).refers k).toNat) (Finset.mem_univ i)]
  have hrest : ∑ j ∈ Finset.univ.erase i, ((update f i pc j).refers k).toNat =
      ∑ j ∈ Finset.univ.erase i, ((f j).refers k).toNat :=
    Finset.sum_congr rfl fun j hj => by rw [update_of_ne (Finset.ne_of_mem_erase hj)]
  rw [hrest, update_self]
  omega

theorem refs_move (h : Refs s) (hpc : s'.pc = update s.pc i pc)
    (hlinked : ∃ l, Linked s'.links l ∧ ∀ k, k ∈ l)
    (hcount : ∀ k, (s'.buf k).refcnt + (s.lock k).isSome.toNat + ((s.pc i).refers k).toNat =
      (s.buf k).refcnt + (s'.lock k).isSome.toNat + (pc.refers k).toNat)
    (hkeep : ∀ k, (s.buf k).refcnt ≠ 0 →
      (s'.buf k).dev = (s.buf k).dev ∧ (s'.buf k).blockno = (s.buf k).blockno)
    (hlock : ∀ j k, j ≠ i → s.lock k = some j → s'.lock k = some j)
    (hnames : ∀ k dev b, pc = .get k dev b ∨ pc = .fill k dev b →
      (s'.buf k).dev = dev ∧ (s'.buf k).blockno = b)
    (howner : ∀ k dev b, pc = .fill k dev b → s'.lock k = some i) : Refs s' := by
  refine ⟨hlinked, fun k => ?_, fun j k dev b hj => ?_, fun j k dev b hj => ?_⟩
  · have hk := h.count k
    have hsum := sum_refers_update s.pc i pc k
    have hc := hcount k
    unfold State.refs at hk ⊢
    rw [hpc]
    omega
  · rw [hpc] at hj
    by_cases hji : j = i
    · subst hji
      rw [update_self] at hj
      exact hnames k dev b hj
    · rw [update_of_ne hji] at hj
      obtain ⟨hdev, hno⟩ := hkeep k (h.used hj)
      rw [hdev, hno]
      exact h.names j k dev b hj
  · rw [hpc] at hj
    by_cases hji : j = i
    · subst hji
      rw [update_self] at hj
      exact howner k dev b hj
    · rw [update_of_ne hji] at hj
      exact hlock j k hji (h.owner j k dev b hj)

omit [DecidableEq ι] in
theorem refs_set {b : Buf β} (h : Refs s) (hbuf : s'.buf = update s.buf k b)
    (hlinks : s'.links = s.links) (hlock : s'.lock = s.lock) (hpc : s'.pc = s.pc)
    (hrefcnt : b.refcnt = (s.buf k).refcnt) (hdev : b.dev = (s.buf k).dev)
    (hno : b.blockno = (s.buf k).blockno) : Refs s' := by
  refine ⟨hlinks ▸ h.linked, fun k' => ?_, fun i k' dev n hi => ?_, fun i k' dev n hi => ?_⟩
  · rw [update_field hbuf Buf.refcnt hrefcnt, State.refs, hlock, hpc]
    exact h.count k'
  · rw [update_field hbuf Buf.dev hdev, update_field hbuf Buf.blockno hno]
    exact h.names i k' dev n (hpc ▸ hi)
  · rw [hlock]
    exact h.owner i k' dev n (hpc ▸ hi)

end Refs

/-! ## What the buffers hold -/

/-- The buffers as the blocks see them. -/
structure SameData (s s' : State ι β) : Prop where
  dev : ∀ k, (s'.buf k).dev = (s.buf k).dev
  blockno : ∀ k, (s'.buf k).blockno = (s.buf k).blockno
  valid : ∀ k, (s'.buf k).valid = (s.buf k).valid
  dirty : ∀ k, (s'.buf k).dirty = (s.buf k).dirty
  data : ∀ k, (s'.buf k).data = (s.buf k).data
  disk : s'.disk = s.disk
  touched : s'.touched = s.touched
  stores : s'.stores = s.stores

theorem sameData_refcnt {n : Nat} (hbuf : s'.buf = update s.buf k { s.buf k with refcnt := n })
    (hdisk : s'.disk = s.disk) (htouched : s'.touched = s.touched) (hstores : s'.stores = s.stores) :
    SameData s s' :=
  ⟨update_field hbuf Buf.dev rfl, update_field hbuf Buf.blockno rfl, update_field hbuf Buf.valid rfl,
    update_field hbuf Buf.dirty rfl, update_field hbuf Buf.data rfl, hdisk, htouched, hstores⟩

theorem SameData.inv (hs : SameData s s') (h : Data d s)
    (hheld : ∀ i k, s'.lock k = some i → (s.buf k).valid = true ∨ ∃ dev b, s'.pc i = .fill k dev b)
    (htouched : ∀ k, s.touched k = true → s'.lock k ≠ none) : Data d s' := by
  have hplain : s'.plain d = s.plain d := by
    unfold State.plain
    rw [hs.stores]
  refine ⟨fun k k' => ?_, fun i k hk => ?_, fun k => ?_, fun k => ?_, fun k => ?_, fun b => ?_, fun k => ?_⟩
  · rw [hs.dev, hs.dev, hs.blockno, hs.blockno]
    exact h.unique k k'
  · rw [hs.valid]
    exact hheld i k hk
  · rw [hs.valid, hs.dev]
    exact h.valid k
  · rw [hs.dirty, hs.valid]
    exact h.dirty k
  · rw [hs.touched, hs.valid]
    exact fun hk => ⟨(h.touched k hk).1, htouched k hk⟩
  · simp only [hs.dev, hs.blockno, hs.dirty, hs.disk, hplain]
    exact h.clean b
  · rw [hs.valid, hs.touched, hs.data, hs.blockno, hplain]
    exact h.data k

/-- One buffer changes, and with it at most what its block holds. The other buffers are of other blocks,
unless this one holds nothing. -/
theorem data_set {b : Buf β} (h : Data d s) (hbuf : s'.buf = update s.buf k b)
    (hlock : s'.lock = s.lock) (htou : ∀ k', k' ≠ k → s'.touched k' = s.touched k')
    (hpcs : ∀ j k' dev n, k' ≠ k → s.pc j = .fill k' dev n → s'.pc j = .fill k' dev n)
    (hheld : ∀ j, s.lock k = some j → b.valid = true ∨ ∃ dev n, s'.pc j = .fill k dev n)
    (hunique : b.dev ≠ 0 → ∀ k', k' ≠ k → ¬ ((s.buf k').dev = b.dev ∧ (s.buf k').blockno = b.blockno))
    (hvalid : b.valid = true → b.dev = ROOTDEV) (hdirty : b.dirty = true → b.valid = true)
    (htouched : s'.touched k = true → b.valid = true ∧ s.lock k ≠ none)
    (hplain : ∀ n, b.dev = ROOTDEV ∧ n = b.blockno ∨ s'.plain d n = s.plain d n ∧ s'.disk n = s.disk n)
    (hold : (s.buf k).dirty = false ∨ (s.buf k).blockno = b.blockno ∧ b.dev = ROOTDEV)
    (hclean : b.dev = ROOTDEV → b.dirty = false → s'.disk b.blockno = s'.plain d b.blockno)
    (hdata : b.valid = true → s'.touched k = false → b.data = s'.plain d b.blockno) : Data d s' := by
  have hself : s'.buf k = b := by rw [hbuf, update_self]
  have hother : ∀ k', k' ≠ k → s'.buf k' = s.buf k' := fun k' hk => by rw [hbuf, update_of_ne hk]
  refine ⟨fun k₁ k₂ hd hdev hno => ?_, fun j k' hj => ?_, fun k' => ?_, fun k' => ?_, fun k' hk' => ?_,
    fun n hn => ?_, fun k' hv ht => ?_⟩
  · by_cases h1 : k₁ = k
    · subst h1
      by_contra hne
      rw [hself] at hd hdev hno
      rw [hother k₂ hne] at hdev hno
      exact hunique hd k₂ hne ⟨hdev, hno⟩
    · rw [hother k₁ h1] at hd hdev hno
      by_cases h2 : k₂ = k
      · subst h2
        rw [hself] at hdev hno
        exact absurd ⟨hdev.symm, hno.symm⟩ (hunique (hdev ▸ hd) k₁ h1)
      · rw [hother k₂ h2] at hdev hno
        exact h.unique k₁ k₂ hd hdev hno
  · rw [hlock] at hj
    by_cases hk : k' = k
    · subst hk
      rw [hself]
      exact hheld j hj
    · rw [hother k' hk]
      exact (h.held j k' hj).imp_right fun ⟨dev, n, hp⟩ => ⟨dev, n, hpcs j k' dev n hk hp⟩
  · by_cases hk : k' = k
    · subst hk
      rw [hself]
      exact hvalid
    · rw [hother k' hk]
      exact h.valid k'
  · by_cases hk : k' = k
    · subst hk
      rw [hself]
      exact hdirty
    · rw [hother k' hk]
      exact h.dirty k'
  · rw [hlock]
    by_cases hk : k' = k
    · subst hk
      rw [hself]
      exact htouched hk'
    · rw [hother k' hk]
      exact h.touched k' (htou k' hk ▸ hk')
  · by_cases hroot : b.dev = ROOTDEV ∧ n = b.blockno
    · obtain ⟨hroot, rfl⟩ := hroot
      refine hclean hroot ?_
      have := hn k
      rw [hself] at this
      exact this hroot rfl
    · obtain ⟨hp, hd⟩ := (hplain n).resolve_left hroot
      rw [hp, hd]
      refine h.clean n fun k' hdev hno => ?_
      by_cases hk : k' = k
      · subst hk
        rcases hold with hc | ⟨hc, hr⟩
        · exact hc
        · exact absurd ⟨hr, hno.symm.trans hc⟩ hroot
      · have := hn k'
        rw [hother k' hk] at this
        exact this hdev hno
  · by_cases hk : k' = k
    · subst hk
      rw [hself] at hv ⊢
      exact hdata hv ht
    · rw [hother k' hk] at hv ⊢
      have hplain' : s'.plain d (s.buf k').blockno = s.plain d (s.buf k').blockno := by
        rcases hplain (s.buf k').blockno with ⟨hroot, hn⟩ | ⟨hp, -⟩
        · exact absurd ⟨(h.valid k' hv).trans hroot.symm, hn⟩ (hunique (by rw [hroot]; decide) k' hk)
        · exact hp
      rw [hplain']
      exact h.data k' hv (htou k' hk ▸ ht)

theorem Data.alone (h : Data d s) (k : Fin NBUF) (hd : (s.buf k).dev ≠ 0) (k' : Fin NBUF) (hk : k' ≠ k) :
    ¬ ((s.buf k').dev = (s.buf k).dev ∧ (s.buf k').blockno = (s.buf k).blockno) := fun hc =>
  hk (h.unique k k' hd hc.1 hc.2)

end Xv6.Bio
