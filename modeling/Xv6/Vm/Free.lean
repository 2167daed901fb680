import Xv6.Vm.Account

/-!
# Freeing user memory and page tables

`deallocuvm` and `freevm` drop one reference for each entry they clear and for each page of the
directory itself. `setupkvm` and `allocuvm` use them to undo what they cannot finish.
-/

open Xv6.Cmd Xv6.Pool

namespace Xv6.Vm

variable {ld : Linker} {dom : Nat → Prop} {s s' : Phys} {own sh : Nat → Nat} {d d' : PgDir}

/-! ## `deallocuvm` -/

theorem deallocLoop_cases {oldsz n a : Nat} (h : deallocLoop ld oldsz (n + 1) d a s = .ok (d', s')) :
    (oldsz ≤ a ∧ d' = d ∧ s' = s) ∨
    (a < oldsz ∧ ¬ d.HasTab a ∧ deallocLoop ld oldsz n d (pgaddr (pdx a + 1)) s = .ok (d', s')) ∨
    (a < oldsz ∧ (d.get a).present = true ∧ ∃ s1, kfree ld (d.get a).ppn s = .ok ((), s1) ∧
      deallocLoop ld oldsz n (d.set a .zero) (u32 (a + PGSIZE)) s1 = .ok (d', s')) ∨
    (a < oldsz ∧ (d.get a).present = false ∧
      deallocLoop ld oldsz n d (u32 (a + PGSIZE)) s = .ok (d', s')) := by
  unfold deallocLoop at h
  split at h
  · next hlt =>
    split at h
    · next ht => exact .inr (.inl ⟨hlt, by simpa [PgDir.HasTab] using ht, h⟩)
    · split at h
      · next hp =>
        split at h
        · exact (throw_ok h).elim
        · obtain ⟨_, s1, hk, h⟩ := bind_ok h
          exact .inr (.inr (.inl ⟨hlt, hp, s1, hk, h⟩))
      · next hp => exact .inr (.inr (.inr ⟨hlt, by simpa using hp, h⟩))
  · next hlt =>
    obtain ⟨rfl, rfl⟩ := Prod.mk.inj (pure_ok h)
    exact .inl ⟨by omega, rfl, rfl⟩

theorem deallocLoop_zero {oldsz a : Nat} (h : deallocLoop ld oldsz 0 d a s = .ok (d', s')) :
    oldsz ≤ a ∧ d' = d ∧ s' = s := by
  unfold deallocLoop at h
  split at h
  · exact (throw_ok h).elim
  · obtain ⟨rfl, rfl⟩ := Prod.mk.inj (pure_ok h)
    exact ⟨by omega, rfl, rfl⟩

/-- The user pages of `d` that `d'` still has. -/
structure Shrunk (d d' : PgDir) : Prop where
  page : d'.page = d.page
  kern : ∀ p, d'.kernRefs p = d.kernRefs p
  user : ∀ p, d'.userRefs p ≤ d.userRefs p
  tabs : ∀ i, (d'.tab i).isSome = (d.tab i).isSome
  entry : ∀ b, d'.get b = d.get b ∨ d'.get b = .zero

theorem Shrunk.refl (d : PgDir) : Shrunk d d :=
  ⟨rfl, fun _ => rfl, fun _ => Nat.le_refl _, fun _ => rfl, fun _ => .inl rfl⟩

theorem Shrunk.trans {d1 d2 d3 : PgDir} (h : Shrunk d1 d2) (h' : Shrunk d2 d3) : Shrunk d1 d3 where
  page := h'.page.trans h.page
  kern p := (h'.kern p).trans (h.kern p)
  user p := Nat.le_trans (h'.user p) (h.user p)
  tabs i := (h'.tabs i).trans (h.tabs i)
  entry b := by
    rcases h'.entry b with h1 | h1
    · rw [h1]; exact h.entry b
    · exact .inr h1

theorem userRefs_clear {a : Nat} (hp : (d.get a).present = true) (ha : a < KERNBASE) (p : Nat) :
    (d.set a .zero).userRefs p + one (d.get a).ppn p = d.userRefs p := by
  have := PgDir.userRefs_set (e := .zero) (PgDir.hasTab_of_present hp) ha p
  rw [Pte.holds_of_present hp, Pte.holds_zero] at this
  omega

theorem shrunk_clear {a : Nat} (hp : (d.get a).present = true) (ha : a < KERNBASE) :
    Shrunk d (d.set a .zero) where
  page := PgDir.set_page _ _ _
  kern := PgDir.kernRefs_set _ _ _
  user p := by have := userRefs_clear hp ha p; omega
  tabs := PgDir.set_tab_isSome _ _ _
  entry b := by
    by_cases h : pdx b ≠ pdx a ∨ ptx b ≠ ptx a
    · exact .inl (PgDir.get_set_ne h)
    · simp only [ne_eq, not_or, Classical.not_not] at h
      rw [PgDir.get_congr _ h.1 h.2, PgDir.get_set_self (PgDir.hasTab_of_present hp)]
      exact .inr rfl

theorem acct_deallocLoop {oldsz n a : Nat} (hold : oldsz ≤ KERNBASE)
    (ha : Acct dom s own (d.userRefs + sh)) (h : deallocLoop ld oldsz n d a s = .ok (d', s')) :
    Acct dom s' own (d'.userRefs + sh) ∧ Kept (own + d'.userRefs + sh) s s' ∧ Shrunk d d' := by
  induction n generalizing d a s with
  | zero =>
    obtain ⟨-, rfl, rfl⟩ := deallocLoop_zero h
    exact ⟨ha, .refl _ _, .refl _⟩
  | succ n ih =>
    rcases deallocLoop_cases h with ⟨-, rfl, rfl⟩ | ⟨-, -, h⟩ | ⟨hlt, hp, s1, hk, h⟩ | ⟨-, -, h⟩
    · exact ⟨ha, .refl _ _, .refl _⟩
    · exact ih ha h
    · have hak : a < KERNBASE := by omega
      have hclear := userRefs_clear hp hak
      have ha1 : Acct dom s own ((d.set a .zero).userRefs + sh + one (d.get a).ppn) :=
        ha.congr (fun _ => rfl) fun q => by
          have := hclear q
          simp only [Pi.add_apply]
          omega
      obtain ⟨ha2, hkept⟩ := acct_kfree_sh ha1 hk
      obtain ⟨h1, h2, h3⟩ := ih ha2 h
      refine ⟨h1, Kept.trans (hkept.mono fun q hq => ?_) h2, (shrunk_clear hp hak).trans h3⟩
      have := h3.user q
      simp only [Pi.add_apply] at hq ⊢
      omega
    · exact ih ha h

theorem deallocLoop_shape {oldsz n a : Nat} (hold : oldsz ≤ KERNBASE) (hal : a % PGSIZE = 0)
    (h : deallocLoop ld oldsz n d a s = .ok (d', s')) :
    (∀ b, a ≤ b → b / PGSIZE * PGSIZE < oldsz → (d'.get b).present = false) ∧
    ∀ b < 0x100000000, b < a ∨ oldsz ≤ b / PGSIZE * PGSIZE → d'.get b = d.get b := by
  induction n generalizing d a s with
  | zero =>
    obtain ⟨hge, rfl, rfl⟩ := deallocLoop_zero h
    refine ⟨fun b hb hlt => ?_, fun _ _ _ => rfl⟩
    simp only [PGSIZE] at *
    omega
  | succ n ih =>
    rcases deallocLoop_cases h with ⟨hge, rfl, rfl⟩ | ⟨hlt, ht, h⟩ | ⟨hlt, hp, s1, hk, h⟩ | ⟨hlt, hp, h⟩
    · refine ⟨fun b hb hlt => ?_, fun _ _ _ => rfl⟩
      simp only [PGSIZE] at *
      omega
    · -- The whole range of the missing table is skipped, and nothing in it is present.
      have hnext : pgaddr (pdx a + 1) = (a / 0x400000 + 1) * 0x400000 := by
        simp only [pgaddr, pdx, u32, KERNBASE] at *; omega
      rw [hnext] at h
      obtain ⟨h1, h2⟩ := ih (by simp only [PGSIZE] at *; omega) h
      have hskip : ∀ b < 0x100000000, b < (a / 0x400000 + 1) * 0x400000 → d'.get b = d.get b :=
        fun b hb hb' => h2 b hb (.inl hb')
      refine ⟨fun b hb hlt' => ?_, fun b hb hout => ?_⟩
      · by_cases hin : b < (a / 0x400000 + 1) * 0x400000
        · have hb32 : b < 0x100000000 := by simp only [PGSIZE, KERNBASE] at *; omega
          have hsame : pdx b = pdx a := by simp only [pdx]; omega
          have hno : ¬ d.HasTab b := by simpa [PgDir.HasTab, hsame] using ht
          rw [hskip b hb32 hin, PgDir.get_of_no_tab hno]
          rfl
        · exact h1 b (by omega) hlt'
      · rcases hout with hout | hout
        · exact hskip b hb (by omega)
        · exact h2 b hb (.inr hout)
    · have hnext : u32 (a + PGSIZE) = a + PGSIZE :=
        u32_of_lt (by simp only [PGSIZE, KERNBASE] at *; omega)
      rw [hnext] at h
      obtain ⟨h1, h2⟩ := ih (by simp only [PGSIZE] at *; omega) h
      have ha32 : a < 0x100000000 := by simp only [KERNBASE] at *; omega
      have htab := PgDir.hasTab_of_present hp
      refine ⟨fun b hb hlt' => ?_, fun b hb hout => ?_⟩
      · by_cases hin : b < a + PGSIZE
        · have hb32 : b < 0x100000000 := by simp only [PGSIZE, KERNBASE] at *; omega
          rw [h2 b hb32 (.inl hin), PgDir.get_set htab ha32 hb32, if_pos]
          · rfl
          · simp only [PGSIZE] at *; omega
        · exact h1 b (by omega) hlt'
      · rw [h2 b hb (by omega), PgDir.get_set htab ha32 hb, if_neg]
        simp only [PGSIZE] at *
        omega
    · have hnext : u32 (a + PGSIZE) = a + PGSIZE :=
        u32_of_lt (by simp only [PGSIZE, KERNBASE] at *; omega)
      rw [hnext] at h
      obtain ⟨h1, h2⟩ := ih (by simp only [PGSIZE] at *; omega) h
      refine ⟨fun b hb hlt' => ?_, fun b hb hout => h2 b hb (by omega)⟩
      by_cases hin : b < a + PGSIZE
      · have hb32 : b < 0x100000000 := by simp only [PGSIZE, KERNBASE] at *; omega
        have hpage : b / PGSIZE = a / PGSIZE := by simp only [PGSIZE] at *; omega
        obtain ⟨e1, e2⟩ := (same_entry hb32 (by simp only [KERNBASE] at *; omega)).mpr hpage
        rw [h2 b hb32 (.inl hin), PgDir.get_congr _ e1 e2]
        exact hp
      · exact h1 b (by omega) hlt'

theorem acct_deallocuvm {oldsz newsz r : Nat} (hold : oldsz ≤ KERNBASE)
    (ha : Acct dom s own (d.userRefs + sh)) (h : deallocuvm ld d oldsz newsz s = .ok ((d', r), s')) :
    Acct dom s' own (d'.userRefs + sh) ∧ Kept (own + d'.userRefs + sh) s s' ∧ Shrunk d d' := by
  unfold deallocuvm at h
  split at h
  · obtain ⟨h1, rfl⟩ := Prod.mk.inj (pure_ok h)
    obtain ⟨rfl, -⟩ := Prod.mk.inj h1
    exact ⟨ha, .refl _ _, .refl _⟩
  · obtain ⟨d1, s1, hl, h⟩ := bind_ok h
    obtain ⟨h1, rfl⟩ := Prod.mk.inj (pure_ok h)
    obtain ⟨rfl, -⟩ := Prod.mk.inj h1
    exact acct_deallocLoop hold ha hl

theorem deallocuvm_shape {oldsz newsz r : Nat} (hold : oldsz ≤ KERNBASE)
    (h : deallocuvm ld d oldsz newsz s = .ok ((d', r), s')) :
    (oldsz ≤ newsz ∧ d' = d ∧ r = oldsz ∧ s' = s) ∨
    (newsz < oldsz ∧ r = newsz ∧
      (∀ b, pgroundup newsz ≤ b → b / PGSIZE * PGSIZE < oldsz → (d'.get b).present = false) ∧
      ∀ b < 0x100000000, b < pgroundup newsz ∨ oldsz ≤ b / PGSIZE * PGSIZE → d'.get b = d.get b) := by
  unfold deallocuvm at h
  split at h
  · next hle =>
    obtain ⟨h1, rfl⟩ := Prod.mk.inj (pure_ok h)
    obtain ⟨rfl, rfl⟩ := Prod.mk.inj h1
    exact .inl ⟨hle, rfl, rfl, rfl⟩
  · next hlt =>
    obtain ⟨d1, s1, hl, h⟩ := bind_ok h
    obtain ⟨h1, rfl⟩ := Prod.mk.inj (pure_ok h)
    obtain ⟨rfl, rfl⟩ := Prod.mk.inj h1
    obtain ⟨h1, h2⟩ := deallocLoop_shape hold (pgroundup_mod _) hl
    exact .inr ⟨by omega, rfl, h1, h2⟩

theorem deallocLoop_total {oldsz n a : Nat} (hdom : ∀ p, dom p → Managed ld p)
    (hold : oldsz ≤ KERNBASE) (hal : a % PGSIZE = 0)
    (hn : oldsz ≤ a + n * PGSIZE) (ha : Acct dom s own (d.userRefs + sh)) :
    ∃ d' s', deallocLoop ld oldsz n d a s = .ok (d', s') := by
  induction n generalizing d a s with
  | zero =>
    refine ⟨d, s, ?_⟩
    rw [deallocLoop, if_neg (by omega)]
    rfl
  | succ n ih =>
    unfold deallocLoop
    by_cases hlt : a < oldsz
    · rw [if_pos hlt]
      have hnext : u32 (a + PGSIZE) = a + PGSIZE :=
        u32_of_lt (by simp only [PGSIZE, KERNBASE] at *; omega)
      have hak : a < KERNBASE := by omega
      split
      · have hskip : pgaddr (pdx a + 1) = (a / 0x400000 + 1) * 0x400000 := by
          simp only [pgaddr, pdx, u32, KERNBASE] at *; omega
        rw [hskip]
        apply ih _ _ ha <;> simp only [PGSIZE] at * <;> omega
      · split
        · next hp =>
          have hm : Managed ld (d.get a).ppn := by
            apply hdom
            apply ha.inDom
            have := PgDir.userRefs_pos hp hak
            simp only [Pi.add_apply]
            omega
          rw [if_neg hm.ne_zero]
          obtain ⟨s1, hk⟩ := kfree_total hm s
          rw [bind_of_ok hk, hnext]
          apply ih (by simp only [PGSIZE] at *; omega) (by simp only [PGSIZE] at *; omega)
          refine (acct_kfree_sh (ha.congr (fun _ => rfl) fun q => ?_) hk).1
          have := userRefs_clear hp hak q
          simp only [Pi.add_apply]
          omega
        · rw [hnext]
          apply ih _ _ ha <;> simp only [PGSIZE] at * <;> omega
    · rw [if_neg hlt]
      exact ⟨d, s, rfl⟩

theorem deallocuvm_total {oldsz newsz : Nat} (hdom : ∀ p, dom p → Managed ld p)
    (hold : oldsz ≤ KERNBASE)
    (ha : Acct dom s own (d.userRefs + sh)) :
    ∃ d' r s', deallocuvm ld d oldsz newsz s = .ok ((d', r), s') := by
  unfold deallocuvm
  split
  · exact ⟨d, oldsz, s, rfl⟩
  · obtain ⟨d', s', h⟩ := deallocLoop_total (n := (oldsz - pgroundup newsz) / PGSIZE + 1) hdom hold
      (pgroundup_mod newsz) (by simp only [PGSIZE]; omega) ha
    exact ⟨d', newsz, s', bind_of_ok h⟩

/-! ## `freevm` -/

/-- The pages of the tables `is`. -/
def tabRefs (d : PgDir) (is : List Nat) (p : Nat) : Nat := (is.map fun i => tabRef (d.tab i) p).sum

theorem kernRefs_eq (d : PgDir) (p : Nat) :
    d.kernRefs p = one d.page p + tabRefs d (List.range NPDENTRIES) p := by
  unfold PgDir.kernRefs tabRefs
  rfl

theorem acct_freeTabs {is : List Nat} {u : Unit} (ha : Acct dom s (tabRefs d is + own) sh)
    (h : freeTabs ld d is s = .ok (u, s')) : Acct dom s' own sh ∧ Kept (own + sh) s s' := by
  induction is generalizing s with
  | nil =>
    obtain ⟨-, rfl⟩ := Prod.mk.inj (pure_ok h)
    exact ⟨ha.congr (fun q => by simp [tabRefs]) fun _ => rfl, .refl _ _⟩
  | cons i is ih =>
    unfold freeTabs at h
    cases ht : d.tab i with
    | none =>
      rw [ht] at h
      exact ih (ha.congr (fun q => by simp [tabRefs, tabRef, ht]) fun _ => rfl) h
    | some t =>
      rw [ht] at h
      obtain ⟨_, s1, hk, h⟩ := bind_ok h
      have ha1 : Acct dom s (tabRefs d is + own + one t.page) sh :=
        ha.congr (fun q => by simp [tabRefs, tabRef, ht]; omega) fun _ => rfl
      obtain ⟨ha2, hkept⟩ := acct_kfree_own ha1 hk
      obtain ⟨ha3, hkept'⟩ := ih ha2 h
      refine ⟨ha3, Kept.trans (hkept.mono fun q hq => ?_) hkept'⟩
      simp only [Pi.add_apply] at hq ⊢
      omega

theorem freeTabs_total {is : List Nat} (hdom : ∀ p, dom p → Managed ld p)
    (ha : Acct dom s (tabRefs d is + own) sh) :
    ∃ s', freeTabs ld d is s = .ok ((), s') := by
  induction is generalizing s with
  | nil => exact ⟨s, rfl⟩
  | cons i is ih =>
    unfold freeTabs
    cases ht : d.tab i with
    | none => exact ih (ha.congr (fun q => by simp [tabRefs, tabRef, ht]) fun _ => rfl)
    | some t =>
      have ha1 : Acct dom s (tabRefs d is + own + one t.page) sh :=
        ha.congr (fun q => by simp [tabRefs, tabRef, ht]; omega) fun _ => rfl
      have hm : Managed ld t.page := hdom _ (ha1.inDom _ (by simp))
      obtain ⟨s1, hk⟩ := kfree_total hm s
      obtain ⟨s', h⟩ := ih (acct_kfree_own ha1 hk).1
      exact ⟨s', (bind_of_ok hk).trans h⟩

theorem userRefs_dealloc_all {r : Nat} (h : deallocuvm ld d KERNBASE 0 s = .ok ((d', r), s'))
    (p : Nat) : d'.userRefs p = 0 := by
  rcases deallocuvm_shape (Nat.le_refl _) h with ⟨hle, -⟩ | ⟨-, -, hclear, -⟩
  · exact absurd hle (by decide)
  · apply PgDir.userRefs_eq_zero
    intro va hva
    refine hclear va (Nat.zero_le _) ?_
    simp only [PGSIZE, KERNBASE] at *
    omega

theorem acct_dealloc_all {r : Nat} (ha : Acct dom s (d.kernRefs + own) (d.userRefs + sh))
    (h : deallocuvm ld d KERNBASE 0 s = .ok ((d', r), s')) :
    Acct dom s' (tabRefs d' (List.range NPDENTRIES) + (own + one d'.page)) sh := by
  obtain ⟨ha1, -, hsh⟩ := acct_deallocuvm (Nat.le_refl _) ha h
  have hzero := userRefs_dealloc_all h
  refine ha1.congr (fun q => ?_) fun q => by simp [hzero]
  have := hsh.kern q
  rw [kernRefs_eq] at this
  simp only [Pi.add_apply]
  omega

theorem acct_freevm {u : Unit} (ha : Acct dom s (d.kernRefs + own) (d.userRefs + sh))
    (h : freevm ld d s = .ok (u, s')) : Acct dom s' own sh ∧ Kept (own + sh) s s' := by
  obtain ⟨⟨d1, r⟩, s1, hd, h⟩ := bind_ok h
  obtain ⟨_, s2, ht, h⟩ := bind_ok h
  obtain ⟨-, hk1, -⟩ := acct_deallocuvm (Nat.le_refl _) ha hd
  obtain ⟨ha3, hk3⟩ := acct_freeTabs (acct_dealloc_all ha hd) ht
  obtain ⟨ha4, hk4⟩ := acct_kfree_own ha3 h
  refine ⟨ha4, Kept.trans (Kept.trans (hk1.mono ?_) (hk3.mono ?_)) hk4⟩ <;>
  · intro q hq
    simp only [Pi.add_apply] at hq ⊢
    omega

theorem freevm_total (hdom : ∀ p, dom p → Managed ld p)
    (ha : Acct dom s (d.kernRefs + own) (d.userRefs + sh)) :
    ∃ s', freevm ld d s = .ok ((), s') := by
  obtain ⟨d1, r, s1, hd⟩ : ∃ d1 r s1, deallocuvm ld d KERNBASE 0 s = .ok ((d1, r), s1) :=
    deallocuvm_total hdom (Nat.le_refl _) ha
  have ha2 := acct_dealloc_all ha hd
  obtain ⟨s2, ht⟩ := freeTabs_total hdom ha2
  have ha3 := (acct_freeTabs ha2 ht).1
  obtain ⟨s3, hk⟩ := kfree_total (hdom _ (ha3.inDom d1.page (by simp))) s2
  exact ⟨s3, (bind_of_ok hd).trans ((bind_of_ok ht).trans hk)⟩

end Xv6.Vm
