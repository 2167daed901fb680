import Xv6.Vm.PgDir

/-!
# Page accounting of `vm.c`

Each function keeps `kmem` in step with the references it adds or drops, whatever else is
referenced: `own` and `sh` stand for the references of everybody else. `Kept` says that the pages
the others refer to keep their contents.
-/

open Xv6.Cmd Xv6.Pool Function

namespace Xv6.Vm

variable (ld : Linker)

/-- The pages that `kinit1` and `kinit2` hand to the allocator. -/
def Managed (p : Nat) : Prop := ld.endAddr ≤ KERNBASE + p * PGSIZE ∧ p * PGSIZE < PHYSTOP

/-- `kmem` agrees, on the pages `dom` that the allocator has been given, with the references `own`
of the kernel and `sh` of the page tables. -/
def Acct (dom : Nat → Prop) (s : Phys) (own sh : Nat → Nat) : Prop :=
  Holds dom s.freelist s.refc_cnt own sh

/-- Referenced pages keep their contents. -/
def Kept (f : Nat → Nat) (s s' : Phys) : Prop := ∀ p, 0 < f p → s'.mem p = s.mem p

variable {ld} {dom : Nat → Prop} {s s' : Phys} {own sh own' sh' f g : Nat → Nat} {p : Nat} {d d' : PgDir}

theorem Acct.congr (h : Acct dom s own sh) (ho : ∀ q, own' q = own q) (hs : ∀ q, sh' q = sh q) :
    Acct dom s own' sh' :=
  Holds.congr h ho hs

theorem Kept.refl (f : Nat → Nat) (s : Phys) : Kept f s s := fun _ _ => rfl

theorem Kept.trans {s'' : Phys} (h : Kept f s s') (h' : Kept f s' s'') : Kept f s s'' :=
  fun p hp => (h' p hp).trans (h p hp)

theorem Kept.mono (h : Kept f s s') (hg : ∀ p, 0 < g p → 0 < f p) : Kept g s s' :=
  fun p hp => h p (hg p hp)

theorem Kept.setMem (hp : f p = 0) (b : Page) : Kept f s (s.setMem p b) := by
  intro q hq
  have hne : q ≠ p := by
    rintro rfl; omega
  exact update_of_ne hne _ _

theorem managed_iff (ld : Linker) (p : Nat) :
    ¬ (P2V (p * PGSIZE) < ld.endAddr ∨ PHYSTOP ≤ p * PGSIZE) ↔ Managed ld p := by
  have h1 := ld.text_lt
  have h2 := ld.data_le
  simp only [Managed, P2V, u32, KERNBASE, PGSIZE, PHYSTOP, KERNLINK] at *
  omega

theorem Managed.ne_zero (h : Managed ld p) : p ≠ 0 := by
  rintro rfl
  have h1 := ld.text_lt
  have h2 := ld.data_le
  have h3 := h.1
  simp only [KERNBASE, PGSIZE, KERNLINK] at *
  omega

/-! ## The allocator -/

theorem kalloc_cases {r : Option Nat} (h : kalloc s = .ok (r, s')) :
    (r = none ∧ s.freelist = [] ∧ s' = { s with freecnt := s.freecnt - 1 }) ∨
    ∃ p rest, r = some p ∧ s.freelist = p :: rest ∧
      s' = { s.setRefc p 1 with freelist := rest, freecnt := s.freecnt - 1 } := by
  unfold kalloc at h
  split at h
  · next p rest hf =>
    obtain ⟨rfl, rfl⟩ := Prod.mk.inj (Except.ok.inj h)
    exact .inr ⟨p, rest, rfl, hf, rfl⟩
  · next hf =>
    obtain ⟨rfl, rfl⟩ := Prod.mk.inj (Except.ok.inj h)
    exact .inl ⟨rfl, hf, rfl⟩

theorem kalloc_mem {r : Option Nat} (h : kalloc s = .ok (r, s')) : s'.mem = s.mem := by
  rcases kalloc_cases h with ⟨-, -, rfl⟩ | ⟨p, rest, -, -, rfl⟩ <;> rfl

theorem acct_kalloc_none (ha : Acct dom s own sh) (h : kalloc s = .ok (none, s')) :
    Acct dom s' own sh := by
  rcases kalloc_cases h with ⟨-, -, rfl⟩ | ⟨p, rest, hr, -⟩
  · exact ha
  · cases hr

theorem acct_kalloc (ha : Acct dom s own sh) (h : kalloc s = .ok (some p, s')) :
    own p = 0 ∧ sh p = 0 ∧ dom p ∧ Acct dom s' (own + one p) sh := by
  rcases kalloc_cases h with ⟨hr, -⟩ | ⟨q, rest, hr, hf, rfl⟩
  · cases hr
  · obtain rfl := Option.some.inj hr
    unfold Acct at ha
    rw [hf] at ha
    exact ha.take

theorem acct_setMem (ha : Acct dom s own sh) (b : Page) : Acct dom (s.setMem p b) own sh := ha

theorem kfree_of_managed (h : Managed ld p) :
    kfree ld p s =
      let s := if 0 < s.refc_cnt p then s.setRefc p (s.refc_cnt p - 1) else s
      .ok ((), if s.refc_cnt p = 0 then s.push p else s) :=
  if_neg ((managed_iff ld p).mpr h)

theorem managed_of_kfree {u : Unit} (h : kfree ld p s = .ok (u, s')) : Managed ld p := by
  by_contra hc
  rw [← managed_iff, Classical.not_not] at hc
  rw [kfree, if_pos hc] at h
  cases h

theorem kfree_last (hm : Managed ld p) (hc : s.refc_cnt p = 1) :
    kfree ld p s = .ok ((), (s.setRefc p 0).push p) := by
  rw [kfree_of_managed hm]
  simp [hc, Phys.setRefc]

theorem kfree_shared (hm : Managed ld p) (hc : 1 < s.refc_cnt p) :
    kfree ld p s = .ok ((), s.setRefc p (s.refc_cnt p - 1)) := by
  rw [kfree_of_managed hm]
  have h0 : 0 < s.refc_cnt p := by omega
  have h1 : s.refc_cnt p - 1 ≠ 0 := by omega
  simp [h0, Phys.setRefc, h1]

theorem kept_push (hp : f p = 0) (n : Int) : Kept f s ((s.setRefc p n).push p) := by
  intro q hq
  have hne : q ≠ p := by
    rintro rfl; omega
  exact update_of_ne hne _ _

theorem acct_kfree_own {u : Unit} (ha : Acct dom s (own + one p) sh)
    (h : kfree ld p s = .ok (u, s')) : Acct dom s' own sh ∧ Kept (own + sh) s s' := by
  obtain ⟨hc, ho, hs, hacct⟩ := Holds.give ha
  rw [kfree_last (managed_of_kfree h) hc] at h
  obtain ⟨-, rfl⟩ := Prod.mk.inj (Except.ok.inj h)
  exact ⟨hacct, kept_push (by simp [ho, hs]) 0⟩

theorem acct_kfree_sh {u : Unit} (ha : Acct dom s own (sh + one p))
    (h : kfree ld p s = .ok (u, s')) : Acct dom s' own sh ∧ Kept (own + sh) s s' := by
  by_cases hp : sh p = 0
  · obtain ⟨hc, ho, hacct⟩ := Holds.drop ha hp
    rw [kfree_last (managed_of_kfree h) hc] at h
    obtain ⟨-, rfl⟩ := Prod.mk.inj (Except.ok.inj h)
    exact ⟨hacct, kept_push (by simp [ho, hp]) 0⟩
  · obtain ⟨hc, hacct⟩ := Holds.release ha (by omega)
    rw [kfree_shared (managed_of_kfree h) hc] at h
    obtain ⟨-, rfl⟩ := Prod.mk.inj (Except.ok.inj h)
    exact ⟨hacct, fun _ _ => rfl⟩

theorem kfree_total (hm : Managed ld p) (s : Phys) : ∃ s', kfree ld p s = .ok ((), s') :=
  ⟨_, kfree_of_managed hm⟩

/-! ## Adding tables and mapping pages -/

theorem walkpgdir_cases {va : Nat} {ok : Bool} (h : walkpgdir d va s = .ok ((d', ok), s')) :
    (d.HasTab va ∧ d' = d ∧ ok = true ∧ s' = s) ∨
    (¬ d.HasTab va ∧ kalloc s = .ok (none, s') ∧ d' = d ∧ ok = false) ∨
    ∃ p s1, d.tab (pdx va) = none ∧ kalloc s = .ok (some p, s1) ∧ d' = d.addTab (pdx va) p ∧
      ok = true ∧ s' = s1.setMem p fun _ => 0 := by
  unfold walkpgdir at h
  cases ht : d.tab (pdx va) with
  | some t =>
    rw [ht] at h
    obtain ⟨h1, rfl⟩ := Prod.mk.inj (pure_ok h)
    obtain ⟨rfl, rfl⟩ := Prod.mk.inj h1
    exact .inl ⟨by simp [PgDir.HasTab, ht], rfl, rfl, rfl⟩
  | none =>
    rw [ht] at h
    have hno : ¬ d.HasTab va := by simp [PgDir.HasTab, ht]
    obtain ⟨r, s1, hk, h⟩ := bind_ok h
    cases r with
    | none =>
      obtain ⟨h1, rfl⟩ := Prod.mk.inj (pure_ok h)
      obtain ⟨rfl, rfl⟩ := Prod.mk.inj h1
      exact .inr (.inl ⟨hno, hk, rfl, rfl⟩)
    | some p =>
      obtain ⟨_, s2, hm, h⟩ := bind_ok h
      obtain ⟨-, rfl⟩ := Prod.mk.inj (Except.ok.inj hm)
      obtain ⟨h1, rfl⟩ := Prod.mk.inj (pure_ok h)
      obtain ⟨rfl, rfl⟩ := Prod.mk.inj h1
      exact .inr (.inr ⟨p, s1, rfl, hk, rfl, rfl, rfl⟩)

theorem walkpgdir_shape {va : Nat} {ok : Bool} (h : walkpgdir d va s = .ok ((d', ok), s')) :
    d.Ext d' ∧ (∀ b, d'.get b = d.get b) ∧ (ok = true → d'.HasTab va) := by
  rcases walkpgdir_cases h with ⟨ht, rfl, -, -⟩ | ⟨-, -, rfl, rfl⟩ | ⟨p, s1, ht, -, rfl, -, -⟩
  · exact ⟨.refl _, fun _ => rfl, fun _ => ht⟩
  · exact ⟨.refl _, fun _ => rfl, fun hc => by cases hc⟩
  · exact ⟨PgDir.ext_addTab _ _ _, PgDir.get_addTab ht, fun _ => PgDir.hasTab_addTab _ _ _⟩

theorem walkpgdir_tab {va i : Nat} {ok : Bool} (hi : pdx va ≠ i)
    (h : walkpgdir d va s = .ok ((d', ok), s')) : d'.tab i = d.tab i := by
  rcases walkpgdir_cases h with ⟨-, rfl, -, -⟩ | ⟨-, -, rfl, -⟩ | ⟨p, s1, -, -, rfl, -, -⟩
  · rfl
  · rfl
  · exact update_of_ne (Ne.symm hi) _ _

theorem acct_walkpgdir {va : Nat} {ok : Bool} (ha : Acct dom s (d.kernRefs + own) sh)
    (h : walkpgdir d va s = .ok ((d', ok), s')) :
    Acct dom s' (d'.kernRefs + own) sh ∧ Kept (own + sh) s s' := by
  rcases walkpgdir_cases h with ⟨-, rfl, -, rfl⟩ | ⟨-, hk, rfl, -⟩ | ⟨p, s1, ht, hk, rfl, -, rfl⟩
  · exact ⟨ha, .refl _ _⟩
  · refine ⟨acct_kalloc_none ha hk, fun q _ => ?_⟩
    rw [kalloc_mem hk]
  · obtain ⟨ho, hs, -, hacct⟩ := acct_kalloc ha hk
    simp only [Pi.add_apply] at ho
    refine ⟨acct_setMem (hacct.congr (fun q => ?_) fun _ => rfl) _, ?_⟩
    · simp only [Pi.add_apply, PgDir.kernRefs_addTab ht (pdx_lt va)]
      omega
    · intro q hq
      rw [(Kept.setMem (by simp only [Pi.add_apply]; omega) _ : Kept (own + sh) s1 _) q hq,
        kalloc_mem hk]

theorem mapLoop_cases {perm : Perm} {n a pa : Nat} {ok : Bool}
    (h : mapLoop perm n d a pa s = .ok ((d', ok), s')) :
    ∃ d1 s1 w, walkpgdir d a s = .ok ((d1, w), s1) ∧
      ((w = false ∧ d' = d1 ∧ ok = false ∧ s' = s1) ∨
       (w = true ∧ (d1.get a).present = false ∧
        ((n = 0 ∧ d' = d1.set a (perm.pte (pa / PGSIZE)) ∧ ok = true ∧ s' = s1) ∨
         ∃ m, n = m + 1 ∧ mapLoop perm m (d1.set a (perm.pte (pa / PGSIZE))) (u32 (a + PGSIZE))
           (u32 (pa + PGSIZE)) s1 = .ok ((d', ok), s')))) := by
  unfold mapLoop at h
  obtain ⟨⟨d1, w⟩, s1, hw, h⟩ := bind_ok h
  refine ⟨d1, s1, w, hw, ?_⟩
  dsimp only at h
  split at h
  · next hf =>
    obtain ⟨h1, rfl⟩ := Prod.mk.inj (pure_ok h)
    obtain ⟨rfl, rfl⟩ := Prod.mk.inj h1
    exact .inl ⟨hf, rfl, rfl, rfl⟩
  · next hf =>
    split at h
    · exact (throw_ok h).elim
    · next hp =>
      refine .inr ⟨by simpa using hf, by simpa using hp, ?_⟩
      cases n with
      | zero =>
        obtain ⟨h1, rfl⟩ := Prod.mk.inj (pure_ok h)
        obtain ⟨rfl, rfl⟩ := Prod.mk.inj h1
        exact .inl ⟨rfl, rfl, rfl, rfl⟩
      | succ m => exact .inr ⟨m, rfl, h⟩

theorem acct_mapLoop {perm : Perm} {n a pa : Nat} {ok : Bool}
    (ha : Acct dom s (d.kernRefs + own) sh) (h : mapLoop perm n d a pa s = .ok ((d', ok), s')) :
    Acct dom s' (d'.kernRefs + own) sh ∧ Kept (own + sh) s s' := by
  induction n generalizing d a pa s with
  | zero =>
    obtain ⟨d1, s1, w, hw, ⟨-, rfl, -, rfl⟩ | ⟨-, -, ⟨-, rfl, -, rfl⟩ | ⟨m, hm, -⟩⟩⟩ := mapLoop_cases h
    · exact acct_walkpgdir ha hw
    · obtain ⟨h1, h2⟩ := acct_walkpgdir ha hw
      exact ⟨h1.congr (fun q => by simp [PgDir.kernRefs_set]) fun _ => rfl, h2⟩
    · omega
  | succ n ih =>
    obtain ⟨d1, s1, w, hw, ⟨-, rfl, -, rfl⟩ | ⟨-, -, ⟨hn, -⟩ | ⟨m, hm, hrest⟩⟩⟩ := mapLoop_cases h
    · exact acct_walkpgdir ha hw
    · omega
    · obtain rfl : m = n := by omega
      obtain ⟨h1, h2⟩ := acct_walkpgdir ha hw
      obtain ⟨h3, h4⟩ := ih (h1.congr (fun q => by simp [PgDir.kernRefs_set]) fun _ => rfl) hrest
      exact ⟨h3, h2.trans h4⟩

theorem mapLoop_shape {perm : Perm} {n a pa : Nat} {ok : Bool} (ha : a % PGSIZE = 0)
    (hlt : a + n * PGSIZE < 0x100000000) (h : mapLoop perm n d a pa s = .ok ((d', ok), s')) :
    d.Ext d' ∧
    ∀ b < 0x100000000, (b < a ∨ a + n * PGSIZE + PGSIZE ≤ b) → d'.get b = d.get b := by
  induction n generalizing d a pa s with
  | zero =>
    obtain ⟨d1, s1, w, hw, hrest⟩ := mapLoop_cases h
    obtain ⟨hext, hget, htab⟩ := walkpgdir_shape hw
    rcases hrest with ⟨-, rfl, -, -⟩ | ⟨rfl, -, ⟨-, rfl, -, -⟩ | ⟨m, hm, -⟩⟩
    · exact ⟨hext, fun b _ _ => hget b⟩
    · refine ⟨hext.trans (PgDir.ext_set _ _ _), fun b hb hout => ?_⟩
      rw [PgDir.get_set (htab rfl) (by omega) hb, if_neg, hget]
      simp only [PGSIZE] at *
      omega
    · omega
  | succ n ih =>
    obtain ⟨d1, s1, w, hw, hrest⟩ := mapLoop_cases h
    obtain ⟨hext, hget, htab⟩ := walkpgdir_shape hw
    rcases hrest with ⟨-, rfl, -, -⟩ | ⟨rfl, -, ⟨hn, -⟩ | ⟨m, hm, hrest⟩⟩
    · exact ⟨hext, fun b _ _ => hget b⟩
    · omega
    · obtain rfl : m = n := by omega
      have hnext : u32 (a + PGSIZE) = a + PGSIZE :=
        u32_of_lt (by simp only [PGSIZE] at *; omega)
      rw [hnext] at hrest
      obtain ⟨hext', hget'⟩ := ih (by simp only [PGSIZE] at *; omega)
        (by simp only [PGSIZE] at *; omega) hrest
      refine ⟨(hext.trans (PgDir.ext_set _ _ _)).trans hext', fun b hb hout => ?_⟩
      rw [hget' b hb (by simp only [PGSIZE] at *; omega),
        PgDir.get_set (htab rfl) (by simp only [PGSIZE] at *; omega) hb, if_neg, hget]
      simp only [PGSIZE] at *
      omega

theorem mapLoop_tab {perm : Perm} {n a pa i : Nat} {ok : Bool} (hlt : a + n * PGSIZE < 0x100000000)
    (hi : ∀ b, a ≤ b → b < a + n * PGSIZE + PGSIZE → pdx b ≠ i)
    (h : mapLoop perm n d a pa s = .ok ((d', ok), s')) : d'.tab i = d.tab i := by
  have hpos : 0 < PGSIZE := by decide
  induction n generalizing d a pa s with
  | zero =>
    obtain ⟨d1, s1, w, hw, hrest⟩ := mapLoop_cases h
    have hia := hi a (Nat.le_refl _) (by omega)
    have h1 := walkpgdir_tab hia hw
    rcases hrest with ⟨-, rfl, -, -⟩ | ⟨rfl, -, ⟨-, rfl, -, -⟩ | ⟨m, hm, -⟩⟩
    · exact h1
    · rw [PgDir.set_tab_of_ne hia, h1]
    · omega
  | succ n ih =>
    obtain ⟨d1, s1, w, hw, hrest⟩ := mapLoop_cases h
    have hia := hi a (Nat.le_refl _) (by omega)
    have h1 := walkpgdir_tab hia hw
    rcases hrest with ⟨-, rfl, -, -⟩ | ⟨rfl, -, ⟨hn, -⟩ | ⟨m, hm, hrest⟩⟩
    · exact h1
    · omega
    · obtain rfl : m = n := by omega
      have hnext : u32 (a + PGSIZE) = a + PGSIZE := u32_of_lt (by simp only [PGSIZE] at *; omega)
      rw [hnext] at hrest
      rw [ih (by simp only [PGSIZE] at *; omega)
        (fun b hb1 hb2 => hi b (by omega) (by simp only [PGSIZE] at *; omega)) hrest,
        PgDir.set_tab_of_ne hia, h1]

theorem mapLoop_mapped {perm : Perm} {n a pa : Nat} (ha : a % PGSIZE = 0)
    (hlt : a + n * PGSIZE < 0x100000000) (hpa : pa + n * PGSIZE < 0x100000000)
    (h : mapLoop perm n d a pa s = .ok ((d', true), s')) (b : Nat) (hab : a ≤ b)
    (hbn : b < a + n * PGSIZE + PGSIZE) :
    d'.HasTab b ∧ (d.get b).present = false ∧
    d'.get b = perm.pte (pa / PGSIZE + (b - a) / PGSIZE) := by
  induction n generalizing d a pa s with
  | zero =>
    obtain ⟨d1, s1, w, hw, hrest⟩ := mapLoop_cases h
    obtain ⟨hext, hget, htab⟩ := walkpgdir_shape hw
    rcases hrest with ⟨-, -, hc, -⟩ | ⟨rfl, hfree, ⟨-, rfl, -, -⟩ | ⟨m, hm, -⟩⟩
    · cases hc
    · have hpage : b / PGSIZE = a / PGSIZE := by simp only [PGSIZE] at *; omega
      have hb : b < 0x100000000 := by simp only [PGSIZE] at *; omega
      obtain ⟨h1, h2⟩ := (same_entry hb (by omega)).mpr hpage
      refine ⟨?_, ?_, ?_⟩
      · rw [PgDir.hasTab_set]
        exact (by simpa [PgDir.HasTab, h1] using htab rfl)
      · rw [← hget, PgDir.get_congr _ h1 h2]
        exact hfree
      · rw [PgDir.get_set (htab rfl) (by omega) hb, if_pos hpage]
        have : (b - a) / PGSIZE = 0 := by simp only [PGSIZE] at *; omega
        rw [this, Nat.add_zero]
    · omega
  | succ n ih =>
    obtain ⟨d1, s1, w, hw, hrest⟩ := mapLoop_cases h
    obtain ⟨hext, hget, htab⟩ := walkpgdir_shape hw
    rcases hrest with ⟨-, -, hc, -⟩ | ⟨rfl, hfree, ⟨hn, -⟩ | ⟨m, hm, hrest⟩⟩
    · cases hc
    · omega
    · obtain rfl : m = n := by omega
      have hnext : u32 (a + PGSIZE) = a + PGSIZE :=
        u32_of_lt (by simp only [PGSIZE] at *; omega)
      have hpnext : u32 (pa + PGSIZE) = pa + PGSIZE :=
        u32_of_lt (by simp only [PGSIZE] at *; omega)
      rw [hnext, hpnext] at hrest
      have ha' : (a + PGSIZE) % PGSIZE = 0 := by simp only [PGSIZE] at *; omega
      have hlt' : a + PGSIZE + m * PGSIZE < 0x100000000 := by simp only [PGSIZE] at *; omega
      have hb : b < 0x100000000 := by simp only [PGSIZE] at *; omega
      by_cases hfirst : b < a + PGSIZE
      · -- The first page: the rest of the loop leaves its entry alone.
        obtain ⟨hext', hget'⟩ := mapLoop_shape ha' hlt' hrest
        have hpage : b / PGSIZE = a / PGSIZE := by simp only [PGSIZE] at *; omega
        obtain ⟨h1, h2⟩ := (same_entry hb (by omega)).mpr hpage
        refine ⟨?_, ?_, ?_⟩
        · apply hext'.hasTab
          rw [PgDir.hasTab_set]
          exact (by simpa [PgDir.HasTab, h1] using htab rfl)
        · rw [← hget, PgDir.get_congr _ h1 h2]
          exact hfree
        · rw [hget' b hb (.inl hfirst), PgDir.get_set (htab rfl) (by omega) hb, if_pos hpage]
          have : (b - a) / PGSIZE = 0 := by simp only [PGSIZE] at *; omega
          rw [this, Nat.add_zero]
      · obtain ⟨h1, h2, h3⟩ := ih ha' hlt' (by simp only [PGSIZE] at *; omega) hrest
          (by omega) (by simp only [PGSIZE] at *; omega)
        refine ⟨h1, ?_, ?_⟩
        · rw [PgDir.get_set (htab rfl) (by omega) hb, if_neg, hget] at h2
          · exact h2
          · simp only [PGSIZE] at *
            omega
        · rw [h3]
          refine congrArg perm.pte ?_
          simp only [PGSIZE] at *
          omega

theorem mapUntil_eq {perm : Perm} {last k n a : Nat} (pa : Nat) (d : PgDir) (ha : a % PGSIZE = 0)
    (hlt : a < 0x100000000) (hl : last % PGSIZE = 0) (hllt : last < 0x100000000)
    (hn : u32 (last + 0x100000000 - a) = n * PGSIZE) (hk : n < k) :
    mapUntil perm last k d a pa = mapLoop perm n d a pa := by
  induction k generalizing n a pa d with
  | zero => omega
  | succ k ih =>
    rw [mapUntil, mapLoop]
    refine congrArg _ (funext fun r => ?_)
    cases n with
    | zero =>
      have heq : a = last := by simp only [u32, PGSIZE] at *; omega
      simp only [heq, if_true]
    | succ n =>
      have hne : a ≠ last := by simp only [u32, PGSIZE] at *; omega
      have hnext := ih (n := n) (u32 (pa + PGSIZE)) (r.1.set a (perm.pte (pa / PGSIZE)))
        (a := u32 (a + PGSIZE)) (by simp only [u32, PGSIZE] at *; omega) (u32_lt _)
        (by simp only [u32, PGSIZE] at *; omega) (by omega)
      simp only [hne, if_false, hnext]

theorem mappages_eq_mapLoop {perm : Perm} {va size pa : Nat} (hva : va < 0x100000000) :
    mappages d va size pa perm =
      mapLoop perm (u32 (pgrounddown (u32 (va + size - 1)) + 0x100000000 - pgrounddown va) / PGSIZE) d
        (pgrounddown va) pa := by
  have hlast := u32_lt (va + size - 1)
  apply mapUntil_eq <;> simp only [u32, pgrounddown, PGSIZE] at * <;> omega

theorem acct_mappages {perm : Perm} {va size pa : Nat} {ok : Bool} (hva : va < 0x100000000)
    (ha : Acct dom s (d.kernRefs + own) sh) (h : mappages d va size pa perm s = .ok ((d', ok), s')) :
    Acct dom s' (d'.kernRefs + own) sh ∧ Kept (own + sh) s s' := by
  rw [mappages_eq_mapLoop hva] at h
  exact acct_mapLoop ha h

theorem mappages_eq {perm : Perm} {va size pa : Nat} (hva : va % PGSIZE = 0)
    (hsize : size % PGSIZE = 0) (hpos : 0 < size) (hlt : va + size ≤ 0x100000000) :
    mappages d va size pa perm = mapLoop perm (size / PGSIZE - 1) d va pa := by
  have h1 : pgrounddown va = va := by
    simp only [pgrounddown, PGSIZE] at *; omega
  have h2 : u32 (pgrounddown (u32 (va + size - 1)) + 0x100000000 - va) / PGSIZE =
      size / PGSIZE - 1 := by
    simp only [u32, pgrounddown, PGSIZE] at *; omega
  rw [mappages_eq_mapLoop (by omega), h1, h2]

theorem mappages_one {perm : Perm} {a q : Nat} {ok : Bool} (ha : a % PGSIZE = 0)
    (hlt : a < KERNBASE) (h : mappages d a PGSIZE (q * PGSIZE) perm s = .ok ((d', ok), s')) :
    ∃ d1, walkpgdir d a s = .ok ((d1, ok), s') ∧ (ok = false → d' = d1) ∧
      (ok = true → (d.get a).present = false ∧ d' = d1.set a (perm.pte q)) := by
  rw [mappages_eq ha (by decide) (by decide) (by simp only [PGSIZE, KERNBASE] at *; omega)] at h
  obtain ⟨d1, s1, w, hw, hrest⟩ := mapLoop_cases h
  rcases hrest with ⟨rfl, rfl, rfl, rfl⟩ | ⟨rfl, hfree, ⟨-, rfl, rfl, rfl⟩ | ⟨m, hm, -⟩⟩
  · exact ⟨_, hw, fun _ => rfl, fun hc => by cases hc⟩
  · refine ⟨d1, hw, (fun hc => by cases hc), fun _ => ⟨?_, ?_⟩⟩
    · rw [← (walkpgdir_shape hw).2.1]; exact hfree
    · rw [Nat.mul_div_cancel _ (by decide)]
  · simp at hm

end Xv6.Vm
