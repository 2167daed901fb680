import Xv6.Vm.Free

/-!
# The kernel's part of a page table

`setupkvm` takes one page for the directory and one for each table, and builds exactly the map
that `kmap` describes.
-/

open Xv6.Cmd Xv6.Pool List

namespace Xv6.Vm

variable {ld : Linker} {dom : Nat → Prop} {s s' : Phys} {own sh : Nat → Nat} {d d' : PgDir}

/-! ## The entries of `kmap` -/

def Kmap.size (k : Kmap) : Nat := u32 (k.phys_end + 0x100000000 - k.phys_start)

/-- Whole pages at or above `KERNBASE`, with no wraparound. -/
structure Kmap.Fits (k : Kmap) : Prop where
  virt_aligned : k.virt % PGSIZE = 0
  phys_aligned : k.phys_start % PGSIZE = 0
  size_aligned : k.size % PGSIZE = 0
  size_pos : 0 < k.size
  virt_ge : KERNBASE ≤ k.virt
  virt_le : k.virt + k.size ≤ 0x100000000
  phys_le : k.phys_start + k.size ≤ 0x100000000

def Kmap.Covers (k : Kmap) (b : Nat) : Prop := k.virt ≤ b ∧ b < k.virt + k.size

instance (k : Kmap) (b : Nat) : Decidable (k.Covers b) := inferInstanceAs (Decidable (_ ∧ _))

/-- The entry that `k` asks for at `b`. -/
def Kmap.pte (k : Kmap) (b : Nat) : Pte := k.perm.pte (k.phys_start / PGSIZE + (b - k.virt) / PGSIZE)

theorem v2p_data (ld : Linker) : V2P ld.data = ld.data - 0x80000000 := by
  have h1 := ld.text_lt
  have h2 := ld.data_lt
  simp only [V2P, u32, KERNLINK, KERNBASE, PHYSTOP] at *
  omega

theorem kmap_fits (ld : Linker) : ∀ k ∈ kmap ld, k.Fits := by
  have h0 := ld.data_aligned
  have h1 := ld.text_lt
  have h2 := ld.data_lt
  have h3 : V2P KERNLINK = 0x100000 := rfl
  intro k hk
  simp only [kmap, mem_cons, not_mem_nil, or_false] at hk
  rcases hk with rfl | rfl | rfl | rfl <;> constructor <;>
    simp only [Kmap.size, u32, v2p_data, h3, KERNBASE, KERNLINK, DEVSPACE, EXTMEM, PHYSTOP, PGSIZE] at * <;>
    omega

theorem kmap_disjoint (ld : Linker) :
    (kmap ld).Pairwise fun k k' => ∀ b, k.Covers b → ¬ k'.Covers b := by
  have h1 := ld.text_lt
  have h2 := ld.data_lt
  have h3 : V2P KERNLINK = 0x100000 := rfl
  simp only [kmap, pairwise_cons, mem_cons, not_mem_nil, or_false, forall_eq_or_imp,
    forall_eq, List.Pairwise.nil, and_true, IsEmpty.forall_iff, implies_true, Kmap.Covers, Kmap.size,
    u32, v2p_data, h3, KERNBASE, KERNLINK, DEVSPACE, EXTMEM, PHYSTOP] at *
  refine ⟨⟨?_, ?_, ?_⟩, ⟨?_, ?_⟩, ?_⟩ <;> intro b <;> omega

theorem mappages_kmap {k : Kmap} (hk : k.Fits) (d : PgDir) :
    mappages d k.virt k.size k.phys_start k.perm =
      mapLoop k.perm (k.size / PGSIZE - 1) d k.virt k.phys_start :=
  mappages_eq hk.virt_aligned hk.size_aligned hk.size_pos hk.virt_le

theorem Kmap.Fits.pages {k : Kmap} (hk : k.Fits) :
    (k.size / PGSIZE - 1) * PGSIZE + PGSIZE = k.size := by
  have h1 := hk.size_aligned
  have h2 := hk.size_pos
  simp only [PGSIZE] at *
  omega

/-! ## The loop over `kmap` -/

theorem kmapLoop_cases {k : Kmap} {ks : List Kmap} {ok : Bool}
    (h : kmapLoop (k :: ks) d s = .ok ((d', ok), s')) :
    ∃ d1 s1 w, mappages d k.virt k.size k.phys_start k.perm s = .ok ((d1, w), s1) ∧
      ((w = true ∧ kmapLoop ks d1 s1 = .ok ((d', ok), s')) ∨
       (w = false ∧ d' = d1 ∧ ok = false ∧ s' = s1)) := by
  obtain ⟨⟨d1, w⟩, s1, hm, h⟩ := bind_ok h
  refine ⟨d1, s1, w, hm, ?_⟩
  cases w with
  | true => exact .inl ⟨rfl, h⟩
  | false =>
    obtain ⟨h1, rfl⟩ := Prod.mk.inj (pure_ok h)
    obtain ⟨rfl, rfl⟩ := Prod.mk.inj h1
    exact .inr ⟨rfl, rfl, rfl, rfl⟩

theorem acct_kmapLoop {ks : List Kmap} {ok : Bool} (hks : ∀ k ∈ ks, k.Fits)
    (ha : Acct dom s (d.kernRefs + own) sh) (h : kmapLoop ks d s = .ok ((d', ok), s')) :
    Acct dom s' (d'.kernRefs + own) sh ∧ Kept (own + sh) s s' := by
  induction ks generalizing d s with
  | nil =>
    obtain ⟨h1, rfl⟩ := Prod.mk.inj (pure_ok h)
    obtain ⟨rfl, -⟩ := Prod.mk.inj h1
    exact ⟨ha, .refl _ _⟩
  | cons k ks ih =>
    have hk := hks k (by simp)
    have hvirt : k.virt < 0x100000000 := Nat.lt_of_lt_of_le (Nat.lt_add_of_pos_right hk.size_pos) hk.virt_le
    obtain ⟨d1, s1, w, hm, ⟨-, h⟩ | ⟨-, rfl, -, rfl⟩⟩ := kmapLoop_cases h
    · obtain ⟨h1, h2⟩ := acct_mappages hvirt ha hm
      obtain ⟨h3, h4⟩ := ih (fun k' hk' => hks k' (by simp [hk'])) h1 h
      exact ⟨h3, h2.trans h4⟩
    · exact acct_mappages hvirt ha hm

theorem kmapLoop_user {ks : List Kmap} {ok : Bool} (hks : ∀ k ∈ ks, k.Fits)
    (h : kmapLoop ks d s = .ok ((d', ok), s')) (va : Nat) (hva : va < KERNBASE) :
    d'.get va = d.get va := by
  induction ks generalizing d s with
  | nil =>
    obtain ⟨h1, rfl⟩ := Prod.mk.inj (pure_ok h)
    obtain ⟨rfl, -⟩ := Prod.mk.inj h1
    rfl
  | cons k ks ih =>
    have hk := hks k (by simp)
    obtain ⟨d1, s1, w, hm, hrest⟩ := kmapLoop_cases h
    rw [mappages_kmap hk] at hm
    have hp := hk.pages
    have hle := hk.virt_le
    have hge := hk.virt_ge
    obtain ⟨-, hget⟩ := mapLoop_shape hk.virt_aligned (by simp only [PGSIZE] at *; omega) hm
    have h1 : d1.get va = d.get va :=
      hget va (by simp only [KERNBASE] at *; omega) (.inl (by omega))
    rcases hrest with ⟨-, h⟩ | ⟨-, rfl, -, -⟩
    · rw [ih (fun k' hk' => hks k' (by simp [hk'])) h, h1]
    · exact h1

/-- What the finished loop has put at `b`, over an entry `e`. -/
def kmapPte (ks : List Kmap) (b : Nat) (e : Pte) : Pte :=
  ks.foldl (fun e k => if k.Covers b then k.pte b else e) e

theorem mappages_kmap_get {k : Kmap} {d1 : PgDir} (hk : k.Fits)
    (h : mappages d k.virt k.size k.phys_start k.perm s = .ok ((d1, true), s')) :
    d.Ext d1 ∧ (∀ b, k.Covers b → d1.HasTab b) ∧
    ∀ b < 0x100000000, d1.get b = if k.Covers b then k.pte b else d.get b := by
  rw [mappages_kmap hk] at h
  have hp := hk.pages
  have hle := hk.virt_le
  have hple := hk.phys_le
  obtain ⟨hext, hget⟩ := mapLoop_shape hk.virt_aligned (by simp only [PGSIZE] at *; omega) h
  have hmap := mapLoop_mapped hk.virt_aligned (by simp only [PGSIZE] at *; omega)
    (by simp only [PGSIZE] at *; omega) h
  refine ⟨hext, fun b hb => (hmap b hb.1 (by have := hb.2; omega)).1, fun b hb => ?_⟩
  split
  · next hc => exact (hmap b hc.1 (by have := hc.2; omega)).2.2
  · next hc =>
    refine hget b hb ?_
    simp only [Kmap.Covers, not_and] at hc
    omega

theorem kmapLoop_get {ks : List Kmap} (hks : ∀ k ∈ ks, k.Fits)
    (h : kmapLoop ks d s = .ok ((d', true), s')) :
    d.Ext d' ∧ (∀ k ∈ ks, ∀ b, k.Covers b → d'.HasTab b) ∧
    ∀ b < 0x100000000, d'.get b = kmapPte ks b (d.get b) := by
  induction ks generalizing d s with
  | nil =>
    obtain ⟨h1, rfl⟩ := Prod.mk.inj (pure_ok h)
    obtain ⟨rfl, -⟩ := Prod.mk.inj h1
    exact ⟨.refl _, by simp, fun _ _ => rfl⟩
  | cons k ks ih =>
    obtain ⟨d1, s1, w, hm, ⟨rfl, h⟩ | ⟨-, -, hc, -⟩⟩ := kmapLoop_cases h
    · obtain ⟨hext, htab, hget⟩ := mappages_kmap_get (hks k (by simp)) hm
      obtain ⟨hext', htab', hget'⟩ := ih (fun k' hk' => hks k' (by simp [hk'])) h
      refine ⟨hext.trans hext', ?_, fun b hb => ?_⟩
      · intro k' hk' b hb
        rcases mem_cons.mp hk' with rfl | hk'
        · exact hext'.hasTab (htab b hb)
        · exact htab' k' hk' b hb
      · rw [hget' b hb, hget b hb]
        rfl
    · cases hc

/-! ## The map -/

/-- The entry of every page table at `va`, above the user part. -/
def kernelPte (ld : Linker) (va : Nat) : Pte :=
  if KERNBASE ≤ va ∧ va < KERNBASE + PHYSTOP then
    { ppn := (va - KERNBASE) / PGSIZE
      present := true
      writable := !(decide (KERNLINK ≤ va) && decide (va < ld.data))
      user := false }
  else if DEVSPACE ≤ va then
    { ppn := va / PGSIZE, present := true, writable := true, user := false }
  else .zero

theorem kmapPte_eq (ld : Linker) (b : Nat) (hb : b < 0x100000000) :
    kmapPte (kmap ld) b .zero = kernelPte ld b := by
  have h0 := ld.data_aligned
  have h1 := ld.text_lt
  have h2 := ld.data_lt
  have h3 : V2P KERNLINK = 0x100000 := rfl
  have hcov : ∀ k : Kmap, k.Covers b ↔
      k.virt ≤ b ∧ b < k.virt + (k.phys_end + 0x100000000 - k.phys_start) % 0x100000000 :=
    fun _ => Iff.rfl
  simp only [kmapPte, kmap, foldl_cons, foldl_nil, hcov, Kmap.pte, v2p_data, h3, kernelPte,
    Perm.pte, KERNBASE, KERNLINK, DEVSPACE, EXTMEM, PHYSTOP, PGSIZE] at *
  by_cases hdev : 0xFE000000 ≤ b
  · rw [if_pos (by omega), if_neg (by omega), if_pos hdev]
    simp only [Pte.mk.injEq, and_true]
    omega
  rw [if_neg (by omega)]
  by_cases hmem : ld.data ≤ b ∧ b < 0x8E000000
  · have hw : decide (b < ld.data) = false := by simp; omega
    rw [if_pos (by omega), if_pos (by omega)]
    simp only [Pte.mk.injEq, and_true, hw, Bool.and_false, Bool.not_false]
    omega
  rw [if_neg (by omega)]
  by_cases htext : 0x80100000 ≤ b ∧ b < ld.data
  · have hw : (decide (0x80100000 ≤ b) && decide (b < ld.data)) = true := by simp; omega
    rw [if_pos (by omega), if_pos (by omega)]
    simp only [Pte.mk.injEq, and_true, hw, Bool.not_true]
    omega
  rw [if_neg (by omega)]
  by_cases hio : 0x80000000 ≤ b ∧ b < 0x80100000
  · have hw : decide (0x80100000 ≤ b) = false := by simp; omega
    rw [if_pos (by omega), if_pos (by omega)]
    simp only [Pte.mk.injEq, and_true, hw, Bool.false_and, Bool.not_false]
    omega
  rw [if_neg (by omega), if_neg (by omega), if_neg (by omega)]

/-- The kernel's part of `d` is as `setupkvm` builds it. -/
def KernelMap (ld : Linker) (d : PgDir) : Prop :=
  ∀ va < 0x100000000, KERNBASE ≤ va → d.get va = kernelPte ld va

theorem KernelMap.congr (h : KernelMap ld d)
    (hget : ∀ va < 0x100000000, KERNBASE ≤ va → d'.get va = d.get va) : KernelMap ld d' :=
  fun va h1 h2 => (hget va h1 h2).trans (h va h1 h2)

/-! ## `setupkvm` -/

theorem setupkvm_cases {r : Option PgDir} (h : setupkvm ld s = .ok (r, s')) :
    (r = none ∧ kalloc s = .ok (none, s')) ∨
    ∃ p s1 d ok s2, kalloc s = .ok (some p, s1) ∧
      kmapLoop (kmap ld) { page := p, tab := fun _ => none } (s1.setMem p fun _ => 0) =
        .ok ((d, ok), s2) ∧
      ((ok = true ∧ r = some d ∧ s' = s2) ∨
       (ok = false ∧ r = none ∧ freevm ld d s2 = .ok ((), s'))) := by
  obtain ⟨q, s1, hk, h⟩ := bind_ok h
  cases q with
  | none =>
    obtain ⟨rfl, rfl⟩ := Prod.mk.inj (pure_ok h)
    exact .inl ⟨rfl, hk⟩
  | some p =>
    obtain ⟨_, s2, hm, h⟩ := bind_ok h
    obtain ⟨-, rfl⟩ := Prod.mk.inj (Except.ok.inj hm)
    rw [if_neg (by decide)] at h
    obtain ⟨⟨d, ok⟩, s3, hl, h⟩ := bind_ok h
    refine .inr ⟨p, s1, d, ok, s3, hk, hl, ?_⟩
    cases ok with
    | true =>
      obtain ⟨rfl, rfl⟩ := Prod.mk.inj (pure_ok h)
      exact .inl ⟨rfl, rfl, rfl⟩
    | false =>
      obtain ⟨_, s4, hf, h⟩ := bind_ok h
      obtain ⟨rfl, rfl⟩ := Prod.mk.inj (pure_ok h)
      exact .inr ⟨rfl, rfl, hf⟩

theorem acct_newdir {p : Nat} {s1 : Phys} (ha : Acct dom s own sh) (hk : kalloc s = .ok (some p, s1)) :
    Acct dom (s1.setMem p fun _ => 0)
      (PgDir.kernRefs { page := p, tab := fun _ => none } + own) sh ∧
    Kept (own + sh) s (s1.setMem p fun _ => 0) := by
  obtain ⟨ho, hs, -, hacct⟩ := acct_kalloc ha hk
  constructor
  · refine acct_setMem (hacct.congr (fun q => ?_) fun _ => rfl) _
    simp only [Pi.add_apply, PgDir.kernRefs_empty]
    omega
  · intro q hq
    rw [(Kept.setMem (by simp only [Pi.add_apply]; omega) _ : Kept (own + sh) s1 _) q hq,
      kalloc_mem hk]

theorem Acct.add_userRefs (ha : Acct dom s own sh) (h : ∀ va < KERNBASE, (d.get va).present = false) :
    Acct dom s own (d.userRefs + sh) :=
  ha.congr (fun _ => rfl) fun q => by simp [PgDir.userRefs_eq_zero h]

theorem kmapLoop_absent {p : Nat} {ks : List Kmap} {ok : Bool} (hks : ∀ k ∈ ks, k.Fits)
    (h : kmapLoop ks { page := p, tab := fun _ => none } s = .ok ((d', ok), s')) :
    ∀ va < KERNBASE, (d'.get va).present = false := by
  intro va hva
  rw [kmapLoop_user hks h va hva]
  rfl

theorem acct_setupkvm_none (ha : Acct dom s own sh) (h : setupkvm ld s = .ok (none, s')) :
    Acct dom s' own sh ∧ Kept (own + sh) s s' := by
  rcases setupkvm_cases h with ⟨-, hk⟩ | ⟨p, s1, d, ok, s2, hk, hl, ⟨-, hc, -⟩ | ⟨-, -, hf⟩⟩
  · refine ⟨acct_kalloc_none ha hk, fun q _ => ?_⟩
    rw [kalloc_mem hk]
  · cases hc
  · obtain ⟨ha1, hk1⟩ := acct_newdir ha hk
    obtain ⟨ha2, hk2⟩ := acct_kmapLoop (kmap_fits ld) ha1 hl
    obtain ⟨ha3, hk3⟩ := acct_freevm (ha2.add_userRefs (kmapLoop_absent (kmap_fits ld) hl)) hf
    exact ⟨ha3, (hk1.trans hk2).trans hk3⟩

theorem setupkvm_shape (h : setupkvm ld s = .ok (some d, s')) :
    ∀ va < 0x100000000, d.get va = kernelPte ld va := by
  rcases setupkvm_cases h with ⟨hc, -⟩ | ⟨p, s1, d1, ok, s2, -, hl, ⟨rfl, hr, -⟩ | ⟨-, hc, -⟩⟩
  · cases hc
  · obtain rfl := Option.some.inj hr
    intro va hva
    rw [(kmapLoop_get (kmap_fits ld) hl).2.2 va hva, PgDir.get_empty, kmapPte_eq ld va hva]
  · cases hc

theorem kernelPte_user {va : Nat} (h : va < KERNBASE) : kernelPte ld va = .zero := by
  have h1 : ¬ DEVSPACE ≤ va := by simp only [KERNBASE, DEVSPACE] at *; omega
  simp only [kernelPte, if_neg h1, ite_eq_right_iff]
  omega

theorem acct_setupkvm (ha : Acct dom s own sh) (h : setupkvm ld s = .ok (some d, s')) :
    Acct dom s' (d.kernRefs + own) (d.userRefs + sh) ∧ Kept (own + sh) s s' := by
  rcases setupkvm_cases h with ⟨hc, -⟩ | ⟨p, s1, d1, ok, s2, hk, hl, ⟨-, hr, rfl⟩ | ⟨-, hc, -⟩⟩
  · cases hc
  · obtain rfl := Option.some.inj hr
    obtain ⟨ha1, hk1⟩ := acct_newdir ha hk
    obtain ⟨ha2, hk2⟩ := acct_kmapLoop (kmap_fits ld) ha1 hl
    exact ⟨ha2.add_userRefs (kmapLoop_absent (kmap_fits ld) hl), hk1.trans hk2⟩
  · cases hc

/-! ## `setupkvm` succeeds while there are pages -/

/-- The tables of `I` that `d` does not have yet. -/
def missing (I : Finset Nat) (d : PgDir) : Nat := (I.filter fun i => (d.tab i).isNone).card

theorem missing_addTab {I : Finset Nat} {i p : Nat} (hi : i ∈ I) (h : d.tab i = none) :
    missing I (d.addTab i p) + 1 = missing I d := by
  have : (I.filter fun j => ((d.addTab i p).tab j).isNone) =
      (I.filter fun j => (d.tab j).isNone).erase i := by
    ext j
    by_cases hj : j = i
    · subst hj; simp [PgDir.addTab]
    · simp [PgDir.addTab, hj]
  rw [missing, this]
  exact Finset.card_erase_add_one (Finset.mem_filter.mpr ⟨hi, by simp [h]⟩)

theorem missing_set (I : Finset Nat) (d : PgDir) (va : Nat) (e : Pte) :
    missing I (d.set va e) = missing I d := by
  have : ∀ i, ((d.set va e).tab i).isNone = (d.tab i).isNone := by
    intro i
    rw [← Option.not_isSome, ← Option.not_isSome, PgDir.set_tab_isSome]
  simp only [missing, this]

theorem walkpgdir_total {I : Finset Nat} {a : Nat} (hI : pdx a ∈ I)
    (hfree : missing I d ≤ s.freelist.length) :
    ∃ d1 s1, walkpgdir d a s = .ok ((d1, true), s1) ∧
      missing I d1 + s.freelist.length = missing I d + s1.freelist.length := by
  unfold walkpgdir
  cases ht : d.tab (pdx a) with
  | some t => exact ⟨d, s, rfl, rfl⟩
  | none =>
    have hm := missing_addTab (p := s.freelist.headD 0) hI ht
    cases hf : s.freelist with
    | nil => rw [hf, length_nil] at hfree; omega
    | cons p rest =>
      rw [hf] at hm
      have hk : kalloc s =
          .ok (some p, { s.setRefc p 1 with freelist := rest, freecnt := s.freecnt - 1 }) := by
        simp [kalloc, hf]
      refine ⟨d.addTab (pdx a) p, _, (bind_of_ok hk).trans rfl, ?_⟩
      simp only [headD_cons] at hm
      simp only [Phys.setMem, length_cons]
      omega

theorem mapLoop_total {I : Finset Nat} {n a : Nat} (perm : Perm) (pa : Nat) (ha : a % PGSIZE = 0)
    (hlt : a + n * PGSIZE < 0x100000000) (hI : ∀ b, a ≤ b → b < a + n * PGSIZE + PGSIZE → pdx b ∈ I)
    (hnew : ∀ b, a ≤ b → b < a + n * PGSIZE + PGSIZE → (d.get b).present = false)
    (hfree : missing I d ≤ s.freelist.length) :
    ∃ d1 s1, mapLoop perm n d a pa s = .ok ((d1, true), s1) ∧
      missing I d1 + s.freelist.length = missing I d + s1.freelist.length := by
  induction n generalizing d a pa s with
  | zero =>
    obtain ⟨d1, s1, hw, hm⟩ := walkpgdir_total (hI a (Nat.le_refl _) (by simp only [PGSIZE]; omega)) hfree
    have hp := hnew a (Nat.le_refl _) (by simp only [PGSIZE]; omega)
    rw [← (walkpgdir_shape hw).2.1] at hp
    refine ⟨d1.set a (perm.pte (pa / PGSIZE)), s1, ?_, by rw [missing_set]; exact hm⟩
    rw [mapLoop, bind_of_ok hw]
    simp [hp]
  | succ n ih =>
    obtain ⟨d1, s1, hw, hm⟩ := walkpgdir_total (hI a (Nat.le_refl _) (by simp only [PGSIZE]; omega)) hfree
    have hp := hnew a (Nat.le_refl _) (by simp only [PGSIZE]; omega)
    rw [← (walkpgdir_shape hw).2.1] at hp
    have hnext : u32 (a + PGSIZE) = a + PGSIZE := u32_of_lt (by simp only [PGSIZE] at *; omega)
    obtain ⟨d2, s2, hl, hm2⟩ := ih (d := d1.set a (perm.pte (pa / PGSIZE))) (a := a + PGSIZE)
      (s := s1) (u32 (pa + PGSIZE)) (by simp only [PGSIZE] at *; omega)
      (by simp only [PGSIZE] at *; omega)
      (fun b h1 h2 => hI b (by omega) (by simp only [PGSIZE] at *; omega))
      (fun b h1 h2 => by
        rw [PgDir.get_set ((walkpgdir_shape hw).2.2 rfl) (by simp only [PGSIZE] at *; omega)
          (by simp only [PGSIZE] at *; omega), if_neg (by simp only [PGSIZE] at *; omega),
          (walkpgdir_shape hw).2.1]
        exact hnew b (by omega) (by simp only [PGSIZE] at *; omega))
      (by rw [missing_set]; omega)
    rw [missing_set] at hm2
    refine ⟨d2, s2, ?_, by omega⟩
    rw [mapLoop, bind_of_ok hw]
    simp only [hp, Bool.true_eq_false, if_false, Bool.false_eq_true, hnext]
    exact hl

theorem kmapLoop_total {I : Finset Nat} {ks : List Kmap} (hks : ∀ k ∈ ks, k.Fits)
    (hdis : ks.Pairwise fun k k' => ∀ b, k.Covers b → ¬ k'.Covers b)
    (hI : ∀ k ∈ ks, ∀ b, k.Covers b → pdx b ∈ I)
    (hnew : ∀ k ∈ ks, ∀ b, k.Covers b → (d.get b).present = false)
    (hfree : missing I d ≤ s.freelist.length) :
    ∃ d1 s1, kmapLoop ks d s = .ok ((d1, true), s1) ∧
      missing I d1 + s.freelist.length = missing I d + s1.freelist.length := by
  induction ks generalizing d s with
  | nil => exact ⟨d, s, rfl, rfl⟩
  | cons k ks ih =>
    have hk := hks k (by simp)
    have hp := hk.pages
    have hle := hk.virt_le
    obtain ⟨hdk, hdis⟩ := pairwise_cons.mp hdis
    obtain ⟨d1, s1, hm, hc1⟩ := mapLoop_total (I := I) (s := s) (n := k.size / PGSIZE - 1)
      k.perm k.phys_start hk.virt_aligned (by simp only [PGSIZE] at *; omega)
      (fun b h1 h2 => hI k (by simp) b ⟨h1, by omega⟩)
      (fun b h1 h2 => hnew k (by simp) b ⟨h1, by omega⟩) hfree
    rw [← mappages_kmap hk] at hm
    obtain ⟨d2, s2, hl, hc2⟩ := ih (fun k' hk' => hks k' (by simp [hk'])) hdis
      (fun k' hk' => hI k' (by simp [hk'])) (d := d1) (s := s1)
      (fun k' hk' b hb => by
        have hfit := hks k' (by simp [hk'])
        have hb32 : b < 0x100000000 := by have := hb.2; have := hfit.virt_le; omega
        rw [(mappages_kmap_get hk hm).2.2 b hb32, if_neg fun hc => hdk k' hk' b hc hb]
        exact hnew k' (by simp [hk']) b hb)
      (by omega)
    exact ⟨d2, s2, (bind_of_ok hm).trans hl, by omega⟩

/-- The tables of the kernel's part: 56 for the memory and 8 for the devices. -/
def kernelTabs : Finset Nat := Finset.Ico 512 568 ∪ Finset.Ico 1016 1024

theorem kernelTabs_card : kernelTabs.card = 64 := by
  rw [kernelTabs, Finset.card_union_of_disjoint, Nat.card_Ico, Nat.card_Ico]
  rw [Finset.disjoint_left]
  intro i hi hi'
  rw [Finset.mem_Ico] at hi hi'
  omega

theorem kmap_tabs (ld : Linker) : ∀ k ∈ kmap ld, ∀ b, k.Covers b → pdx b ∈ kernelTabs := by
  have h1 := ld.text_lt
  have h2 := ld.data_lt
  have h3 : V2P KERNLINK = 0x100000 := rfl
  intro k hk b hb
  simp only [kmap, mem_cons, not_mem_nil, or_false] at hk
  simp only [kernelTabs, Finset.mem_union, Finset.mem_Ico, pdx]
  rcases hk with rfl | rfl | rfl | rfl <;>
    simp only [Kmap.Covers, Kmap.size, u32, v2p_data, h3, KERNBASE, KERNLINK, DEVSPACE, EXTMEM,
      PHYSTOP] at * <;>
    omega

theorem kmapLoop_tab {ks : List Kmap} {ok : Bool} {i : Nat} (hks : ∀ k ∈ ks, k.Fits)
    (hi : ∀ k ∈ ks, ∀ b, k.Covers b → pdx b ≠ i) (h : kmapLoop ks d s = .ok ((d', ok), s')) :
    d'.tab i = d.tab i := by
  induction ks generalizing d s with
  | nil =>
    obtain ⟨rfl, -, -⟩ := pure_pair_ok h
    rfl
  | cons k ks ih =>
    have hk := hks k (by simp)
    obtain ⟨d1, s1, w, hm, hrest⟩ := kmapLoop_cases h
    rw [mappages_kmap hk] at hm
    have hp := hk.pages
    have hle := hk.virt_le
    have h1 : d1.tab i = d.tab i := mapLoop_tab (by simp only [PGSIZE] at *; omega)
      (fun b hb1 hb2 => hi k (by simp) b ⟨hb1, by omega⟩) hm
    rcases hrest with ⟨-, h⟩ | ⟨-, rfl, -, -⟩
    · rw [ih (fun k' hk' => hks k' (by simp [hk'])) (fun k' hk' => hi k' (by simp [hk'])) h, h1]
    · exact h1

theorem setupkvm_tab {i : Nat} (hi : i ∉ kernelTabs) (h : setupkvm ld s = .ok (some d, s')) :
    d.tab i = none := by
  rcases setupkvm_cases h with ⟨hc, -⟩ | ⟨p, s1, d1, ok, s2, -, hl, ⟨-, hr, -⟩ | ⟨-, hr, -⟩⟩
  · cases hc
  · obtain rfl := Option.some.inj hr
    have hne : ∀ k ∈ kmap ld, ∀ b, k.Covers b → pdx b ≠ i := by
      rintro k hk b hb rfl
      exact hi (kmap_tabs ld k hk b hb)
    rw [kmapLoop_tab (kmap_fits ld) hne hl]
  · cases hr

theorem setupkvm_total (ld : Linker) {s : Phys} (h : 65 ≤ s.freelist.length) :
    ∃ d s', setupkvm ld s = .ok (some d, s') ∧ s.freelist.length ≤ s'.freelist.length + 65 := by
  cases hf : s.freelist with
  | nil => simp [hf] at h
  | cons p rest =>
    have hk : kalloc s =
        .ok (some p, { s.setRefc p 1 with freelist := rest, freecnt := s.freecnt - 1 }) := by
      simp [kalloc, hf]
    have hmiss : missing kernelTabs { page := p, tab := fun _ => none } = 64 := by
      simp only [missing, Option.isNone_none, Finset.filter_true, kernelTabs_card]
    obtain ⟨d, s2, hl, hc⟩ := kmapLoop_total (I := kernelTabs)
      (d := { page := p, tab := fun _ => none })
      (s := ({ s.setRefc p 1 with freelist := rest, freecnt := s.freecnt - 1 } : Phys).setMem p
        fun _ => 0)
      (kmap_fits ld) (kmap_disjoint ld) (kmap_tabs ld) (fun _ _ _ _ => rfl) (by
        rw [hmiss]
        simp only [Phys.setMem]
        simp [hf] at h
        omega)
    refine ⟨d, s2, ?_, ?_⟩
    · unfold setupkvm
      rw [bind_of_ok hk]
      refine (bind_of_ok (a := ()) rfl).trans ?_
      rw [if_neg (by decide), bind_of_ok hl]
      rfl
    · rw [hmiss] at hc
      simp only [Phys.setMem] at hc
      simp only [length_cons]
      omega

end Xv6.Vm
