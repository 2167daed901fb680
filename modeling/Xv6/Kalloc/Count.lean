import Xv6.Kalloc.Code

/-!
# The count of free pages

`kmem.freecnt` is the length of the free list as long as no page is taken from an empty list and no
free page is freed again. One step of either kind makes it wrong.
-/

open Xv6.Link Xv6.Run Function List

namespace Xv6.Kalloc

variable {ld : Vm.Linker} {s s' : Kmem} {l : List Nat} {p v : Nat}

/-- The free list comes to its end, and `countfp` reports its length. -/
def Exact (s : Kmem) : Prop :=
  ∃ l, Chain s.next s.freelist l ∧ (countfp s).toNat = l.length

structure Counted (s : Kmem) (l : List Nat) : Prop where
  chain : Chain s.next s.freelist l
  count : s.freecnt.toNat = l.length
  pages : ∀ p ∈ l, p < PHYSTOP / PGSIZE

theorem Counted.free_iff (h : Counted s l) : s.Free p ↔ p ∈ l := by
  constructor
  · rintro ⟨l', hl', hp⟩
    rwa [h.chain.unique hl']
  · intro hp
    exact ⟨l, h.chain, hp⟩

theorem length_le (hnd : l.Nodup) (hl : ∀ p ∈ l, p < PHYSTOP / PGSIZE) : l.length ≤ 0xE000 := by
  have hsub : l ⊆ List.range (PHYSTOP / PGSIZE) := fun p hp => mem_range.mpr (hl p hp)
  have hle := (subperm_of_subset hnd hsub).length_le
  rw [length_range] at hle
  exact hle

theorem Counted.length_le (h : Counted s l) : l.length ≤ 0xE000 :=
  Kalloc.length_le h.chain.nodup h.pages

/-! ## One page -/

theorem chain_of_push {l' : List Nat} : Chain (s.push p).next (s.push p).freelist l' ↔
    ∃ l, l' = p :: l ∧ p ∉ l ∧ Chain s.next s.freelist l :=
  chain_push

theorem counted_push (h : Counted s l) (hp : p ∉ l) (hlt : p < PHYSTOP / PGSIZE) :
    Counted (s.push p) (p :: l) where
  chain := chain_of_push.mpr ⟨l, rfl, hp, h.chain⟩
  count := by
    have h1 := h.count
    have h2 := h.length_le
    change (s.freecnt + 1).toNat = _
    rw [UInt32.toNat_add, length_cons, h1]
    exact Nat.mod_eq_of_lt (by simp; omega)
  pages q hq := by
    rcases mem_cons.mp hq with rfl | hq
    · exact hlt
    · exact h.pages q hq

theorem not_exact_push (hp : s.Free p) : ¬ Exact (s.push p) := by
  rintro ⟨l', hl', -⟩
  obtain ⟨l, -, hno, hl⟩ := chain_of_push.mp hl'
  obtain ⟨l'', hl'', hp⟩ := hp
  rw [hl''.unique hl] at hp
  exact hno hp

theorem accepts_page (hv : v < 0x100000000) (h : Accepts ld v) :
    pageOf (V2P v) = (v - KERNBASE) / PGSIZE ∧ KERNBASE ≤ v ∧ pageOf (V2P v) < PHYSTOP / PGSIZE := by
  have h1 := ld.text_lt
  have h2 := ld.data_le
  obtain ⟨h3, h4, h5⟩ := h
  simp only [pageOf, V2P, u32, PGSIZE, PHYSTOP, KERNBASE, KERNLINK] at *
  omega

/-- `kfree` puts the page on the list. -/
def Pushes (s : Kmem) (p : Nat) : Prop := s.refc_cnt p = 0 ∨ s.refc_cnt p = 1

theorem freePage_push (h : Pushes s p) : ∃ r, freePage p s = ({ s with refc_cnt := r } : Kmem).push p := by
  unfold freePage
  rcases h with h | h
  · exact ⟨s.refc_cnt, by simp [h]⟩
  · exact ⟨update s.refc_cnt p 0, by simp [h, Kmem.setRefc]⟩

theorem freePage_keep (h : ¬ Pushes s p) : ∃ r, freePage p s = { s with refc_cnt := r } := by
  unfold freePage
  rw [Pushes, not_or] at h
  by_cases hpos : 0 < s.refc_cnt p
  · have hne : s.refc_cnt p - 1 ≠ 0 := fun hc => h.2 <| calc
      s.refc_cnt p = s.refc_cnt p - 1 + 1 := (Int32.sub_add_cancel _ _).symm
      _ = 1 := by rw [hc]; rfl
    exact ⟨update s.refc_cnt p (s.refc_cnt p - 1), by simp [hpos, Kmem.setRefc, hne]⟩
  · exact ⟨s.refc_cnt, by simp [hpos, h.1]⟩

/-! ## A range of pages -/

/-- The pages that `freerange` frees from the address `p` on. -/
def InRange (p vend q : Nat) : Prop :=
  ∃ v, v % PGSIZE = 0 ∧ p ≤ v ∧ v + PGSIZE ≤ vend ∧ q = pageOf (V2P v)

/-- `s'` is `s` with the pages `ps` in front of its list. -/
structure Prepended (ps : List Nat) (s s' : Kmem) : Prop where
  count : s'.freecnt = s.freecnt + UInt32.ofNat ps.length
  chain : ∀ l', Chain s'.next s'.freelist l' ↔
    ∃ l, l' = ps ++ l ∧ (∀ q ∈ ps, q ∉ l) ∧ Chain s.next s.freelist l
  nodup : ps.Nodup
  pages : ∀ q ∈ ps, q < PHYSTOP / PGSIZE

theorem Prepended.nil (s : Kmem) : Prepended [] s s where
  count := by simp
  chain l' := by simp
  nodup := nodup_nil
  pages := by simp

theorem Prepended.push {ps : List Nat} {s1 : Kmem} (hps : Prepended ps s1 s') (h1 : s1.freelist = some p)
    (h2 : s1.next = update s.next p s.freelist) (h3 : s1.freecnt = s.freecnt + 1)
    (hp : p ∉ ps) (hlt : p < PHYSTOP / PGSIZE) : Prepended (ps ++ [p]) s s' where
  count := by
    rw [hps.count, h3, length_append, UInt32.ofNat_add, length_singleton, UInt32.add_assoc]
    exact congrArg _ (UInt32.add_comm _ _)
  chain l' := by
    rw [hps.chain, h1, h2]
    constructor
    · rintro ⟨l1, rfl, hdis, hl1⟩
      obtain ⟨l, rfl, hpl, hl⟩ := chain_push.mp hl1
      refine ⟨l, by simp, fun q hq => ?_, hl⟩
      rcases mem_append.mp hq with hq | hq
      · exact fun hql => hdis q hq (mem_cons_of_mem _ hql)
      · rw [mem_singleton.mp hq]
        exact hpl
    · rintro ⟨l, rfl, hdis, hl⟩
      refine ⟨p :: l, by simp, fun q hq hql => ?_, chain_push.mpr ⟨l, rfl, hdis p (by simp), hl⟩⟩
      rcases mem_cons.mp hql with rfl | hql
      · exact hp hq
      · exact hdis q (mem_append_left _ hq) hql
  nodup := by
    rw [nodup_append]
    refine ⟨hps.nodup, nodup_singleton _, fun q hq r hr => ?_⟩
    rw [mem_singleton.mp hr]
    rintro rfl
    exact hp hq
  pages q hq := by
    rcases mem_append.mp hq with hq | hq
    · exact hps.pages q hq
    · rw [mem_singleton.mp hq]
      exact hlt

theorem inRange_succ {vend q : Nat} (hal : p % PGSIZE = 0) (hle : p + PGSIZE ≤ vend) :
    InRange p vend q ↔ q = pageOf (V2P p) ∨ InRange (p + PGSIZE) vend q := by
  constructor
  · rintro ⟨v, h1, h2, h3, rfl⟩
    by_cases hv : v = p
    · exact .inl (by rw [hv])
    · refine .inr ⟨v, h1, ?_, h3, rfl⟩
      simp only [PGSIZE] at *
      omega
  · rintro (rfl | ⟨v, h1, h2, h3, rfl⟩)
    · exact ⟨p, hal, Nat.le_refl _, hle, rfl⟩
    · exact ⟨v, h1, by omega, h3, rfl⟩

theorem freeLoop_prepended {vend n : Nat} (hal : p % PGSIZE = 0) (hp : p < 0x100000000)
    (hvend : vend < 0x100000000) (h : freeLoop ld vend n p s = some s') :
    ∃ ps, Prepended ps s s' ∧ ∀ q, q ∈ ps ↔ InRange p vend q := by
  induction n generalizing p s with
  | zero => cases h
  | succ n ih =>
    unfold freeLoop at h
    split at h
    · next hle =>
      obtain ⟨s1, hk, h⟩ := Option.bind_eq_some_iff.mp h
      unfold kfree at hk
      split at hk
      · next hacc =>
        obtain ⟨hpage, hge, hlt⟩ := accepts_page hp hacc
        have hnext : u32 (p + PGSIZE) = p + PGSIZE := by
          have := hacc.2.2
          simp only [V2P, u32, PHYSTOP, PGSIZE, KERNBASE] at *
          omega
        rw [hnext] at h hle
        obtain ⟨ps, hps, hmem⟩ := ih (by simp only [PGSIZE] at *; omega)
          (by rw [← hnext]; exact u32_lt _) h
        obtain ⟨r, hr⟩ := freePage_push (s := s.setRefc (pageOf (V2P p)) 0) (p := pageOf (V2P p))
          (.inl (by simp [Kmem.setRefc]))
        rw [hr] at hk
        obtain rfl := Option.some.inj hk
        -- Later rounds are at higher addresses.
        have hnew : pageOf (V2P p) ∉ ps := by
          rw [hmem]
          rintro ⟨v, -, h2, h3, hv⟩
          rw [hpage] at hv
          simp only [pageOf, V2P, u32, PGSIZE, KERNBASE] at *
          omega
        refine ⟨ps ++ [pageOf (V2P p)], hps.push rfl rfl rfl hnew hlt, fun q => ?_⟩
        rw [inRange_succ hal hle, mem_append, mem_singleton, hmem, or_comm]
      · cases hk
    · next hle =>
      obtain rfl := Option.some.inj h
      refine ⟨[], Prepended.nil _, fun q => ?_⟩
      simp only [not_mem_nil, false_iff]
      rintro ⟨v, h1, h2, h3, -⟩
      refine hle ?_
      rw [u32_of_lt (by omega)]
      omega

theorem freerange_prepended {vstart vend : Nat} (hvend : vend < 0x100000000)
    (h : freerange ld vstart vend s = some s') :
    ∃ ps, Prepended ps s s' ∧ ∀ q, q ∈ ps ↔ InRange (pgroundup vstart) vend q :=
  freeLoop_prepended (pgroundup_mod _)
    (Nat.lt_of_le_of_lt (Nat.div_mul_le_self _ _) (u32_lt _)) hvend h

theorem Prepended.length_le {ps : List Nat} (hps : Prepended ps s s') : ps.length ≤ 0xE000 :=
  Kalloc.length_le hps.nodup hps.pages

theorem Prepended.counted {ps : List Nat} (hps : Prepended ps s s') (h : Counted s l)
    (hdis : ∀ q ∈ ps, q ∉ l) : Counted s' (ps ++ l) where
  chain := (hps.chain _).mpr ⟨l, rfl, hdis, h.chain⟩
  count := by
    have h1 := h.length_le
    have h2 := hps.length_le
    rw [hps.count, UInt32.toNat_add, h.count, UInt32.toNat_ofNat', length_append]
    omega
  pages q hq := by
    rcases mem_append.mp hq with hq | hq
    · exact hps.pages q hq
    · exact h.pages q hq

/-! ## One step -/

/-- What keeps the count exact: `kalloc` finds a page, no free page is freed again, and `kinit1` finds
an empty list. -/
def CallOk (s : Kmem) : Option Call → Prop
  | some (.kinit1 _ _) => s.freelist = none
  | some (.kinit2 vstart vend) =>
    ∀ q, InRange (pgroundup vstart.toNat) vend.toNat q → ¬ s.Free q
  | some .kalloc => s.freelist ≠ none
  | some (.kfree v) => Pushes s (pageOf (V2P v.toNat)) → ¬ s.Free (pageOf (V2P v.toNat))
  | _ => True

theorem kalloc_none (h : s.freelist = none) : kalloc s = { s with freecnt := s.freecnt - 1 } := by
  unfold kalloc
  rw [h]

theorem kalloc_some {r : Nat} (h : s.freelist = some r) :
    kalloc s = { s.setRefc r 1 with freelist := s.next r, freecnt := s.freecnt - 1 } := by
  unfold kalloc
  rw [h]

theorem counted_kalloc (h : Counted s l) (hne : s.freelist ≠ none) : ∃ l, Counted (kalloc s) l := by
  cases l with
  | nil => exact absurd (h.chain.nil_iff.mpr rfl) hne
  | cons r l =>
    obtain ⟨hr, hl⟩ := h.chain
    rw [kalloc_some hr]
    refine ⟨l, hl, ?_, fun p hp => h.pages p (mem_cons_of_mem _ hp)⟩
    · have h1 := h.count
      have h2 := h.length_le
      change (s.freecnt - 1).toNat = _
      rw [UInt32.toNat_sub, h1]
      simp only [length_cons, UInt32.toNat_one] at *
      omega

theorem not_exact_kalloc (h : Counted s l) (hnone : s.freelist = none) : ¬ Exact (kalloc s) := by
  have hl := h.chain.nil_iff.mp hnone
  have hcnt := h.count
  rw [kalloc_none hnone]
  rintro ⟨l', hl', hc⟩
  rw [← h.chain.unique hl', hl] at hc
  rw [hl] at hcnt
  change (s.freecnt - 1).toNat = 0 at hc
  rw [UInt32.toNat_sub, hcnt] at hc
  simp at hc

theorem counted_kfree (h : Counted s l) (hok : Pushes s (pageOf (V2P v)) → ¬ s.Free (pageOf (V2P v)))
    (hv : v < 0x100000000) (hk : kfree ld v s = some s') : ∃ l, Counted s' l := by
  unfold kfree at hk
  split at hk
  · next hacc =>
    obtain rfl := Option.some.inj hk
    by_cases hpush : Pushes s (pageOf (V2P v))
    · obtain ⟨r, hr⟩ := freePage_push hpush
      rw [hr]
      refine ⟨_, counted_push (l := l) ⟨h.chain, h.count, h.pages⟩ ?_ (accepts_page hv hacc).2.2⟩
      exact fun hm => hok hpush (h.free_iff.mpr hm)
    · obtain ⟨r, hr⟩ := freePage_keep hpush
      rw [hr]
      exact ⟨l, h.chain, h.count, h.pages⟩
  · cases hk

theorem not_exact_kfree (hpush : Pushes s (pageOf (V2P v))) (hfree : s.Free (pageOf (V2P v)))
    (hk : kfree ld v s = some s') : ¬ Exact s' := by
  unfold kfree at hk
  split at hk
  · obtain rfl := Option.some.inj hk
    obtain ⟨r, hr⟩ := freePage_push hpush
    rw [hr]
    exact not_exact_push hfree
  · cases hk

theorem counted_step {c : Option Call} (h : ∃ l, Counted s l) (hok : CallOk s c) (hs : Step ld s c s') :
    ∃ l, Counted s' l := by
  obtain ⟨l, h⟩ := h
  cases hs with
  | write x hfree =>
    refine ⟨l, (chain_update x fun hm => hfree (h.free_iff.mpr hm)).mpr h.chain, h.count, h.pages⟩
  | call c hc =>
    cases c with
    | kinit1 vstart vend =>
      rw [call, kinit1] at hc
      obtain ⟨ps, hps, -⟩ := freerange_prepended vend.toNat_lt hc
      have hl := h.chain.nil_iff.mp hok
      subst hl
      exact ⟨ps ++ [], hps.counted ⟨h.chain, rfl, h.pages⟩ (by simp)⟩
    | kinit2 vstart vend =>
      rw [call, kinit2] at hc
      obtain ⟨ps, hps, hmem⟩ := freerange_prepended vend.toNat_lt hc
      refine ⟨ps ++ l, hps.counted h fun q hq hql => ?_⟩
      exact hok q ((hmem q).mp hq) (h.free_iff.mpr hql)
    | kalloc =>
      obtain rfl := Option.some.inj hc
      exact counted_kalloc h hok
    | kfree v => exact counted_kfree h hok v.toNat_lt hc
    | incr_refc pa | decr_refc pa =>
      obtain rfl := Option.some.inj hc
      exact ⟨l, h.chain, h.count, h.pages⟩

theorem not_exact_step {c : Option Call} (h : ∃ l, Counted s l) (hbad : ¬ CallOk s c)
    (hs : Step ld s c s') : ¬ Exact s' := by
  obtain ⟨l, h⟩ := h
  cases hs with
  | write x hfree => exact absurd trivial hbad
  | call c hc =>
    cases c with
    | kinit1 vstart vend =>
      rw [call, kinit1] at hc
      obtain ⟨ps, hps, -⟩ := freerange_prepended vend.toNat_lt hc
      rintro ⟨l', hl', hcnt⟩
      obtain ⟨l1, rfl, -, hl1⟩ := (hps.chain l').mp hl'
      have hne : l1 ≠ [] := fun hnil => hbad ((Chain.nil_iff hl1).mpr hnil)
      have hpos := length_pos_iff.mpr hne
      have hle := hps.length_le
      rw [countfp, hps.count, UInt32.toNat_add, UInt32.toNat_ofNat', length_append] at hcnt
      simp only [UInt32.toNat_zero] at hcnt
      omega
    | kinit2 vstart vend =>
      rw [call, kinit2] at hc
      obtain ⟨ps, hps, hmem⟩ := freerange_prepended vend.toNat_lt hc
      rintro ⟨l', hl', -⟩
      obtain ⟨l1, rfl, hdis, hl1⟩ := (hps.chain l').mp hl'
      refine hbad fun q hq hfree => hdis q ((hmem q).mpr hq) ?_
      rw [← h.chain.unique hl1]
      exact h.free_iff.mp hfree
    | kalloc =>
      obtain rfl := Option.some.inj hc
      exact not_exact_kalloc h (by simpa [CallOk] using hbad)
    | kfree v =>
      simp only [CallOk, Classical.not_imp, Classical.not_not] at hbad
      exact not_exact_kfree hbad.1 hbad.2 hc
    | incr_refc pa | decr_refc pa => exact absurd trivial hbad

theorem counted_powerOn (next : Nat → Option Nat) : Counted (powerOn next) [] :=
  ⟨rfl, rfl, by simp⟩

end Xv6.Kalloc
