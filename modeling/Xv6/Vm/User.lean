import Xv6.Vm.Kvm

/-!
# User memory

`allocuvm`, `copyuvm` and `CoW_handler`: what they do to the page tables, to the page accounting
and to the contents of the pages.
-/

open Xv6.Cmd Xv6.Pool

namespace Xv6.Vm

variable {ld : Linker} {dom : Nat → Prop} {s s' : Phys} {own sh : Nat → Nat} {d d' : PgDir}

/-! ## Mapping one user page -/

theorem map_user_shape {perm : Perm} {a q : Nat} {ok : Bool} (ha : a % PGSIZE = 0)
    (hlt : a < KERNBASE) (h : mappages d a PGSIZE (q * PGSIZE) perm s = .ok ((d', ok), s')) :
    d.Ext d' ∧ (ok = false → ∀ b, d'.get b = d.get b) ∧
    (ok = true → d'.HasTab a ∧ (d.get a).present = false ∧
      ∀ b < 0x100000000, d'.get b = if b / PGSIZE = a / PGSIZE then perm.pte q else d.get b) := by
  obtain ⟨d1, hw, hfail, hok⟩ := mappages_one ha hlt h
  obtain ⟨hext, hget, htab⟩ := walkpgdir_shape hw
  cases ok with
  | false =>
    obtain rfl := hfail rfl
    exact ⟨hext, fun _ => hget, fun hc => by cases hc⟩
  | true =>
    obtain ⟨hfree, rfl⟩ := hok rfl
    refine ⟨hext.trans (PgDir.ext_set _ _ _), (fun hc => by cases hc), fun _ => ⟨?_, hfree, ?_⟩⟩
    · rw [PgDir.hasTab_set]; exact htab rfl
    · intro b hb
      rw [PgDir.get_set (htab rfl) (by simp only [KERNBASE] at *; omega) hb, hget]

theorem userRefs_map {perm : Perm} {a q : Nat} {ok : Bool} (ha : a % PGSIZE = 0)
    (hlt : a < KERNBASE) (h : mappages d a PGSIZE (q * PGSIZE) perm s = .ok ((d', ok), s')) (p : Nat) :
    d'.userRefs p = d.userRefs p + if ok then one q p else 0 := by
  obtain ⟨d1, hw, hfail, hok⟩ := mappages_one ha hlt h
  obtain ⟨hext, hget, htab⟩ := walkpgdir_shape hw
  have h1 : d1.userRefs p = d.userRefs p := PgDir.userRefs_congr (fun va _ => hget va) p
  cases ok with
  | false =>
    obtain rfl := hfail rfl
    exact h1
  | true =>
    obtain ⟨hfree, rfl⟩ := hok rfl
    have := PgDir.userRefs_set (e := perm.pte q) (htab rfl) hlt p
    rw [hget, Pte.holds_of_absent hfree, Pte.holds_of_present rfl, h1] at this
    exact this

theorem acct_map {perm : Perm} {a q : Nat} {ok : Bool} (hlt : a < KERNBASE)
    (ha : Acct dom s (d.kernRefs + own) sh) (h : mappages d a PGSIZE (q * PGSIZE) perm s = .ok ((d', ok), s')) :
    Acct dom s' (d'.kernRefs + own) sh ∧ Kept (own + sh) s s' :=
  acct_mappages (Nat.lt_trans hlt (by decide)) ha h

/-! ## `allocuvm` -/

theorem allocLoop_cases {oldsz newsz n a r : Nat}
    (h : allocLoop ld oldsz newsz (n + 1) d a s = .ok ((d', r), s')) :
    (newsz ≤ a ∧ d' = d ∧ r = newsz ∧ s' = s) ∨
    (a < newsz ∧ ∃ s1 r', kalloc s = .ok (none, s1) ∧
      deallocuvm ld d newsz oldsz s1 = .ok ((d', r'), s') ∧ r = 0) ∨
    (a < newsz ∧ ∃ q s1 d1 s2, kalloc s = .ok (some q, s1) ∧
      mappages d a PGSIZE (q * PGSIZE) userPerm (s1.setMem q fun _ => 0) = .ok ((d1, true), s2) ∧
      allocLoop ld oldsz newsz n d1 (u32 (a + PGSIZE)) s2 = .ok ((d', r), s')) ∨
    (a < newsz ∧ ∃ q s1 d1 s2 r' s3, kalloc s = .ok (some q, s1) ∧
      mappages d a PGSIZE (q * PGSIZE) userPerm (s1.setMem q fun _ => 0) = .ok ((d1, false), s2) ∧
      deallocuvm ld d1 newsz oldsz s2 = .ok ((d', r'), s3) ∧ kfree ld q s3 = .ok ((), s') ∧ r = 0) := by
  unfold allocLoop at h
  split at h
  · next hlt =>
    obtain ⟨q, s1, hk, h⟩ := bind_ok h
    cases q with
    | none =>
      obtain ⟨⟨d1, r'⟩, s2, hd, h⟩ := bind_ok h
      obtain ⟨h1, rfl⟩ := Prod.mk.inj (pure_ok h)
      obtain ⟨rfl, rfl⟩ := Prod.mk.inj h1
      exact .inr (.inl ⟨hlt, s1, r', hk, hd, rfl⟩)
    | some q =>
      obtain ⟨_, s2, hm, h⟩ := bind_ok h
      obtain ⟨-, rfl⟩ := Prod.mk.inj (Except.ok.inj hm)
      obtain ⟨⟨d1, ok⟩, s3, hmap, h⟩ := bind_ok h
      cases ok with
      | true => exact .inr (.inr (.inl ⟨hlt, q, s1, d1, s3, hk, hmap, h⟩))
      | false =>
        obtain ⟨⟨d2, r'⟩, s4, hd, h⟩ := bind_ok h
        obtain ⟨_, s5, hf, h⟩ := bind_ok h
        obtain ⟨h1, rfl⟩ := Prod.mk.inj (pure_ok h)
        obtain ⟨rfl, rfl⟩ := Prod.mk.inj h1
        exact .inr (.inr (.inr ⟨hlt, q, s1, d1, s3, r', s4, hk, hmap, hd, hf, rfl⟩))
  · next hlt =>
    obtain ⟨h1, rfl⟩ := Prod.mk.inj (pure_ok h)
    obtain ⟨rfl, rfl⟩ := Prod.mk.inj h1
    exact .inl ⟨by omega, rfl, rfl, rfl⟩

theorem allocLoop_zero {oldsz newsz a r : Nat}
    (h : allocLoop ld oldsz newsz 0 d a s = .ok ((d', r), s')) :
    newsz ≤ a ∧ d' = d ∧ r = newsz ∧ s' = s := by
  unfold allocLoop at h
  split at h
  · exact (throw_ok h).elim
  · obtain ⟨h1, rfl⟩ := Prod.mk.inj (pure_ok h)
    obtain ⟨rfl, rfl⟩ := Prod.mk.inj h1
    exact ⟨by omega, rfl, rfl, rfl⟩

theorem acct_kalloc_zero {q : Nat} {s1 : Phys} (ha : Acct dom s own sh)
    (hk : kalloc s = .ok (some q, s1)) :
    Acct dom (s1.setMem q fun _ => 0) (own + one q) sh ∧
    Kept (own + sh) s (s1.setMem q fun _ => 0) := by
  obtain ⟨ho, hs, -, hacct⟩ := acct_kalloc ha hk
  refine ⟨acct_setMem hacct _, fun p hp => ?_⟩
  rw [(Kept.setMem (by simp only [Pi.add_apply]; omega) _ : Kept (own + sh) s1 _) p hp, kalloc_mem hk]

theorem acct_page {q a : Nat} {s1 s2 : Phys} {d1 : PgDir} (hal : a % PGSIZE = 0) (hlt : a < KERNBASE)
    (ha : Acct dom s (d.kernRefs + own) (d.userRefs + sh)) (hk : kalloc s = .ok (some q, s1))
    (hm : mappages d a PGSIZE (q * PGSIZE) userPerm (s1.setMem q fun _ => 0) = .ok ((d1, true), s2)) :
    Acct dom s2 (d1.kernRefs + own) (d1.userRefs + sh) ∧ Kept (own + d.userRefs + sh) s s2 ∧
    (∀ p, d1.userRefs p = d.userRefs p + one q p) ∧ s2.mem q = fun _ => 0 := by
  obtain ⟨h1, hk1⟩ := acct_kalloc_zero ha hk
  have h1' : Acct dom (s1.setMem q fun _ => 0) (d.kernRefs + (own + one q)) (d.userRefs + sh) :=
    h1.congr (fun p => by simp only [Pi.add_apply]; omega) fun _ => rfl
  obtain ⟨h2, hk2⟩ := acct_map hlt h1' hm
  have hu : ∀ p, d1.userRefs p = d.userRefs p + one q p := userRefs_map hal hlt hm
  have h2' : Acct dom s2 (d1.kernRefs + own + one q) (d.userRefs + sh) :=
    h2.congr (fun p => by simp only [Pi.add_apply]; omega) fun _ => rfl
  refine ⟨Holds.congr h2'.publish (fun _ => rfl) fun p => ?_, ?_, hu, ?_⟩
  · have := hu p
    simp only [Pi.add_apply]
    omega
  · refine Kept.trans (hk1.mono ?_) (hk2.mono ?_) <;>
    · intro p hp
      simp only [Pi.add_apply] at *
      omega
  · rw [hk2 q (by simp only [Pi.add_apply, one_self]; omega)]
    simp [Phys.setMem]

theorem acct_page_fail {q a : Nat} {s1 s2 : Phys} {d1 : PgDir} (hal : a % PGSIZE = 0)
    (hlt : a < KERNBASE) (ha : Acct dom s (d.kernRefs + own) (d.userRefs + sh))
    (hk : kalloc s = .ok (some q, s1))
    (hm : mappages d a PGSIZE (q * PGSIZE) userPerm (s1.setMem q fun _ => 0) = .ok ((d1, false), s2)) :
    Acct dom s2 (d1.kernRefs + (own + one q)) (d1.userRefs + sh) ∧ Kept (own + sh) s s2 := by
  obtain ⟨h1, hk1⟩ := acct_kalloc_zero ha hk
  have h1' : Acct dom (s1.setMem q fun _ => 0) (d.kernRefs + (own + one q)) (d.userRefs + sh) :=
    h1.congr (fun p => by simp only [Pi.add_apply]; omega) fun _ => rfl
  obtain ⟨h2, hk2⟩ := acct_map hlt h1' hm
  have hu : ∀ p, d1.userRefs p = d.userRefs p := userRefs_map hal hlt hm
  refine ⟨h2.congr (fun _ => rfl) fun p => by simp only [Pi.add_apply, hu], ?_⟩
  refine Kept.trans (hk1.mono ?_) (hk2.mono ?_) <;>
  · intro p hp
    simp only [Pi.add_apply] at *
    omega

theorem acct_allocLoop {oldsz newsz n a r : Nat} (hnew : newsz ≤ KERNBASE) (hal : a % PGSIZE = 0)
    (ha : Acct dom s (d.kernRefs + own) (d.userRefs + sh))
    (h : allocLoop ld oldsz newsz n d a s = .ok ((d', r), s')) :
    Acct dom s' (d'.kernRefs + own) (d'.userRefs + sh) ∧ Kept (own + sh) s s' := by
  induction n generalizing d a s with
  | zero =>
    obtain ⟨-, rfl, -, rfl⟩ := allocLoop_zero h
    exact ⟨ha, .refl _ _⟩
  | succ n ih =>
    rcases allocLoop_cases h with ⟨-, rfl, -, rfl⟩ | ⟨-, s1, r', hk, hd, -⟩ |
      ⟨hlt, q, s1, d1, s2, hk, hm, h⟩ | ⟨hlt, q, s1, d1, s2, r', s3, hk, hm, hd, hf, -⟩
    · exact ⟨ha, .refl _ _⟩
    · obtain ⟨h1, h2, h3⟩ := acct_deallocuvm hnew (acct_kalloc_none ha hk) hd
      refine ⟨h1.congr (fun p => by simp [h3.kern]) fun _ => rfl, fun p hp => ?_⟩
      rw [h2 p (by simp only [Pi.add_apply] at *; omega), kalloc_mem hk]
    · obtain ⟨h3, hk3, -, -⟩ := acct_page hal (by omega) ha hk hm
      have hnext : u32 (a + PGSIZE) = a + PGSIZE :=
        u32_of_lt (by simp only [PGSIZE, KERNBASE] at *; omega)
      rw [hnext] at h
      obtain ⟨h4, hk4⟩ := ih (by simp only [PGSIZE] at *; omega) h3 h
      refine ⟨h4, Kept.trans (hk3.mono fun p hp => ?_) hk4⟩
      simp only [Pi.add_apply] at *
      omega
    · obtain ⟨h2, hk2⟩ := acct_page_fail hal (by omega) ha hk hm
      obtain ⟨h3, hk3, hsh⟩ := acct_deallocuvm hnew h2 hd
      have h3' : Acct dom s3 (d'.kernRefs + own + one q) (d'.userRefs + sh) :=
        h3.congr (fun p => by simp only [Pi.add_apply, hsh.kern]; omega) fun _ => rfl
      obtain ⟨h4, hk4⟩ := acct_kfree_own h3' hf
      refine ⟨h4, Kept.trans (Kept.trans hk2 (hk3.mono ?_)) (hk4.mono ?_)⟩ <;>
      · intro p hp
        simp only [Pi.add_apply] at *
        omega

theorem acct_allocuvm {oldsz newsz r : Nat} (ha : Acct dom s (d.kernRefs + own) (d.userRefs + sh))
    (h : allocuvm ld d oldsz newsz s = .ok ((d', r), s')) :
    Acct dom s' (d'.kernRefs + own) (d'.userRefs + sh) ∧ Kept (own + sh) s s' := by
  unfold allocuvm at h
  split at h
  · obtain ⟨h1, rfl⟩ := Prod.mk.inj (pure_ok h)
    obtain ⟨rfl, -⟩ := Prod.mk.inj h1
    exact ⟨ha, .refl _ _⟩
  · next hnew =>
    split at h
    · obtain ⟨h1, rfl⟩ := Prod.mk.inj (pure_ok h)
      obtain ⟨rfl, -⟩ := Prod.mk.inj h1
      exact ⟨ha, .refl _ _⟩
    · exact acct_allocLoop (by omega) (pgroundup_mod _) ha h

/-- Nobody else refers to the user pages of `d`, and `d` refers to each of them once. -/
def Private (d : PgDir) (sh : Nat → Nat) : Prop :=
  ∀ va < KERNBASE, (d.get va).present = true →
    d.userRefs (d.get va).ppn = 1 ∧ sh (d.get va).ppn = 0

/-- What a successful `allocuvm` has done: the pages from `a` to `newsz` are new, writable, cleared
user pages. -/
structure Grown (a newsz : Nat) (d d' : PgDir) (s' : Phys) : Prop where
  ext : d.Ext d'
  out : ∀ b < 0x100000000, b < a ∨ newsz ≤ b / PGSIZE * PGSIZE → d'.get b = d.get b
  new : ∀ b, a ≤ b → b / PGSIZE * PGSIZE < newsz → d'.HasTab b ∧ (d.get b).present = false ∧
    ∃ q, d'.get b = userPerm.pte q ∧ s'.mem q = fun _ => 0

theorem grown_refl {a newsz : Nat} (hal : a % PGSIZE = 0) (h : newsz ≤ a) (d : PgDir) (s : Phys) :
    Grown a newsz d d s := by
  refine ⟨.refl _, fun _ _ _ => rfl, fun b hb hlt => ?_⟩
  simp only [PGSIZE] at *
  omega

theorem allocLoop_ok {oldsz newsz n a r : Nat} (hnew : newsz ≤ KERNBASE) (hal : a % PGSIZE = 0)
    (ha : Acct dom s (d.kernRefs + own) (d.userRefs + sh))
    (h : allocLoop ld oldsz newsz n d a s = .ok ((d', r), s')) (hr : r ≠ 0) :
    r = newsz ∧ Grown a newsz d d' s' ∧ Kept (own + d.userRefs + sh) s s' := by
  induction n generalizing d a s with
  | zero =>
    obtain ⟨hle, rfl, rfl, rfl⟩ := allocLoop_zero h
    exact ⟨rfl, grown_refl hal hle _ _, .refl _ _⟩
  | succ n ih =>
    rcases allocLoop_cases h with ⟨hle, rfl, rfl, rfl⟩ | ⟨-, -, -, -, -, hz⟩ |
      ⟨hlt, q, s1, d1, s2, hk, hm, h⟩ | ⟨-, -, -, -, -, -, -, -, -, -, -, hz⟩
    · exact ⟨rfl, grown_refl hal hle _ _, .refl _ _⟩
    · exact absurd hz hr
    · have hak : a < KERNBASE := by omega
      obtain ⟨h3, hk3, hu, hzero⟩ := acct_page hal hak ha hk hm
      have hnext : u32 (a + PGSIZE) = a + PGSIZE :=
        u32_of_lt (by simp only [PGSIZE, KERNBASE] at *; omega)
      rw [hnext] at h
      obtain ⟨hrn, hg, hk4⟩ := ih (by simp only [PGSIZE] at *; omega) h3 h
      obtain ⟨hext, -, hmap⟩ := map_user_shape hal hak hm
      obtain ⟨htab, hfree, hget⟩ := hmap rfl
      refine ⟨hrn, ⟨hext.trans hg.ext, ?_, ?_⟩, ?_⟩
      · intro b hb hout
        rw [hg.out b hb (by omega), hget b hb, if_neg]
        simp only [PGSIZE] at *
        omega
      · intro b hab hbn
        have hb : b < 0x100000000 := by simp only [PGSIZE, KERNBASE] at *; omega
        by_cases hfirst : b < a + PGSIZE
        · have hpage : b / PGSIZE = a / PGSIZE := by simp only [PGSIZE] at *; omega
          obtain ⟨e1, e2⟩ := (same_entry hb (by simp only [KERNBASE] at *; omega)).mpr hpage
          have hbget : d'.get b = userPerm.pte q := by
            rw [hg.out b hb (.inl hfirst), hget b hb, if_pos hpage]
          refine ⟨PgDir.hasTab_of_present (by rw [hbget]; rfl), ?_, q, hbget, ?_⟩
          · rw [PgDir.get_congr _ e1 e2]; exact hfree
          · have hq1 : 0 < (own + d1.userRefs + sh) q := by
              have := hu q
              simp only [Pi.add_apply, one_self] at *
              omega
            rw [hk4 q hq1, hzero]
        · obtain ⟨t1, t2, t3⟩ := hg.new b (by omega) hbn
          refine ⟨t1, ?_, t3⟩
          rw [hget b hb, if_neg] at t2
          · exact t2
          · simp only [PGSIZE] at *
            omega
      · refine hk3.trans (hk4.mono fun p hp => ?_)
        have := hu p
        simp only [Pi.add_apply] at *
        omega
    · exact absurd hz hr

theorem allocLoop_counts {oldsz newsz n a r : Nat} (hnew : newsz ≤ KERNBASE) (hal : a % PGSIZE = 0)
    (ha : Acct dom s (d.kernRefs + own) (d.userRefs + sh))
    (h : allocLoop ld oldsz newsz n d a s = .ok ((d', r), s')) (hr : r ≠ 0) :
    (∀ p, 0 < d.userRefs p + sh p → d'.userRefs p = d.userRefs p) ∧
    ∀ b, a ≤ b → b / PGSIZE * PGSIZE < newsz →
      d'.userRefs (d'.get b).ppn = 1 ∧ sh (d'.get b).ppn = 0 := by
  have hend : ∀ {a : Nat}, a % PGSIZE = 0 → newsz ≤ a → ∀ b, a ≤ b → ¬ b / PGSIZE * PGSIZE < newsz := by
    intro a hal hle b hb
    simp only [PGSIZE] at *
    omega
  induction n generalizing d a s with
  | zero =>
    obtain ⟨hle, rfl, -, -⟩ := allocLoop_zero h
    exact ⟨fun _ _ => rfl, fun b hb hlt => absurd hlt (hend hal hle b hb)⟩
  | succ n ih =>
    rcases allocLoop_cases h with ⟨hle, rfl, -, -⟩ | ⟨-, -, -, -, -, hz⟩ |
      ⟨hlt, q, s1, d1, s2, hk, hm, h⟩ | ⟨-, -, -, -, -, -, -, -, -, -, -, hz⟩
    · exact ⟨fun _ _ => rfl, fun b hb hlt => absurd hlt (hend hal hle b hb)⟩
    · exact absurd hz hr
    · have hak : a < KERNBASE := by omega
      obtain ⟨ho, hs, -⟩ := acct_kalloc ha hk
      simp only [Pi.add_apply] at ho hs
      obtain ⟨h3, -, hu, -⟩ := acct_page hal hak ha hk hm
      have hnext : u32 (a + PGSIZE) = a + PGSIZE :=
        u32_of_lt (by simp only [PGSIZE, KERNBASE] at *; omega)
      rw [hnext] at h
      have hal' : (a + PGSIZE) % PGSIZE = 0 := by simp only [PGSIZE] at *; omega
      obtain ⟨hold, hcnt⟩ := ih hal' h3 h
      refine ⟨fun p hp => ?_, fun b hb hbn => ?_⟩
      · have hne : p ≠ q := by
          rintro rfl; omega
        have := hu p
        rw [one_of_ne hne] at this
        rw [hold p (by omega), this, Nat.add_zero]
      · by_cases hfirst : b < a + PGSIZE
        · obtain ⟨-, hg, -⟩ := allocLoop_ok hnew hal' h3 h hr
          obtain ⟨-, -, hmap⟩ := map_user_shape hal hak hm
          obtain ⟨-, -, hget⟩ := hmap rfl
          have hb32 : b < 0x100000000 := by simp only [PGSIZE, KERNBASE] at *; omega
          have hbq : (d'.get b).ppn = q := by
            rw [hg.out b hb32 (.inl hfirst), hget b hb32, if_pos (by simp only [PGSIZE] at *; omega)]
            rfl
          have := hu q
          rw [one_self] at this
          rw [hbq, hold q (by omega)]
          omega
        · exact hcnt b (by omega) hbn
    · exact absurd hz hr

theorem Shrunk.ext (h : Shrunk d d') : d.Ext d' :=
  ⟨h.page, fun i hi => by rw [h.tabs]; exact hi⟩

/-- What a failed `allocuvm` leaves: nothing is mapped from `oldsz` to `newsz`, and every other
entry is as it was. -/
structure Undone (oldsz newsz : Nat) (d d' : PgDir) : Prop where
  ext : d.Ext d'
  out : ∀ b < 0x100000000, b < pgroundup oldsz ∨ newsz ≤ b / PGSIZE * PGSIZE → d'.get b = d.get b
  gone : ∀ b, pgroundup oldsz ≤ b → b / PGSIZE * PGSIZE < newsz → (d'.get b).present = false

theorem Undone.entry {oldsz newsz va : Nat} (h : Undone oldsz newsz d d') (hva : va < KERNBASE)
    (hp : (d'.get va).present = true) : d'.get va = d.get va := by
  refine h.out va (by simp only [KERNBASE] at *; omega) ?_
  by_contra hc
  simp only [not_or, Nat.not_lt, Nat.not_le] at hc
  rw [h.gone va hc.1 hc.2] at hp
  cases hp

theorem undone_of_dealloc {oldsz newsz r : Nat} {d1 : PgDir} (hnew : newsz ≤ KERNBASE)
    (hlt : oldsz < newsz) (hext : d.Ext d1)
    (hget : ∀ b < 0x100000000, b < pgroundup oldsz ∨ newsz ≤ b / PGSIZE * PGSIZE → d1.get b = d.get b)
    (ha : Acct dom s own (d1.userRefs + sh))
    (h : deallocuvm ld d1 newsz oldsz s = .ok ((d', r), s')) : Undone oldsz newsz d d' := by
  obtain ⟨-, -, hsh⟩ := acct_deallocuvm hnew ha h
  rcases deallocuvm_shape hnew h with ⟨hle, -⟩ | ⟨-, -, h1, h2⟩
  · omega
  · exact ⟨hext.trans hsh.ext, fun b hb hout => (h2 b hb hout).trans (hget b hb hout), h1⟩

theorem allocLoop_fail {oldsz newsz n a r : Nat} (hnew : newsz ≤ KERNBASE) (hold : oldsz ≤ newsz)
    (hal : a % PGSIZE = 0) (hle : pgroundup oldsz ≤ a)
    (ha : Acct dom s (d.kernRefs + own) (d.userRefs + sh))
    (h : allocLoop ld oldsz newsz n d a s = .ok ((d', r), s')) (hr : r = 0) (hpos : 0 < newsz) :
    Undone oldsz newsz d d' := by
  have hround : oldsz ≤ pgroundup oldsz := le_pgroundup (by omega)
  induction n generalizing d a s with
  | zero =>
    obtain ⟨-, -, hz, -⟩ := allocLoop_zero h
    omega
  | succ n ih =>
    rcases allocLoop_cases h with ⟨-, -, hz, -⟩ | ⟨hlt, s1, r', hk, hd, -⟩ |
      ⟨hlt, q, s1, d1, s2, hk, hm, h⟩ | ⟨hlt, q, s1, d1, s2, r', s3, hk, hm, hd, -, -⟩
    · omega
    · exact undone_of_dealloc hnew (by omega) (.refl _) (fun _ _ _ => rfl)
        (acct_kalloc_none ha hk) hd
    · have hak : a < KERNBASE := by omega
      obtain ⟨h3, -⟩ := acct_page hal hak ha hk hm
      have hnext : u32 (a + PGSIZE) = a + PGSIZE :=
        u32_of_lt (by simp only [PGSIZE, KERNBASE] at *; omega)
      rw [hnext] at h
      have hun := ih (by simp only [PGSIZE] at *; omega) (by omega) h3 h
      obtain ⟨hext, -, hmap⟩ := map_user_shape hal hak hm
      obtain ⟨-, -, hget⟩ := hmap rfl
      refine ⟨hext.trans hun.ext, fun b hb hout => ?_, hun.gone⟩
      rw [hun.out b hb hout, hget b hb, if_neg]
      simp only [PGSIZE] at *
      omega
    · have hak : a < KERNBASE := by omega
      obtain ⟨h2, -⟩ := acct_page_fail hal hak ha hk hm
      obtain ⟨hext, hsame, -⟩ := map_user_shape hal hak hm
      exact undone_of_dealloc hnew (by omega) hext (fun b _ _ => hsame rfl b) h2 hd

theorem allocuvm_ok {oldsz newsz r : Nat} (ha : Acct dom s (d.kernRefs + own) (d.userRefs + sh))
    (h : allocuvm ld d oldsz newsz s = .ok ((d', r), s')) (hr : r ≠ 0) :
    newsz < KERNBASE ∧
    ((newsz < oldsz ∧ r = oldsz ∧ d' = d ∧ s' = s) ∨
     (oldsz ≤ newsz ∧ r = newsz ∧ Grown (pgroundup oldsz) newsz d d' s' ∧
      Kept (own + d.userRefs + sh) s s')) := by
  unfold allocuvm at h
  split at h
  · obtain ⟨h1, rfl⟩ := Prod.mk.inj (pure_ok h)
    exact absurd (Prod.mk.inj h1).2 hr
  · next hnew =>
    refine ⟨by omega, ?_⟩
    split at h
    · next hlt =>
      obtain ⟨h1, rfl⟩ := Prod.mk.inj (pure_ok h)
      obtain ⟨rfl, rfl⟩ := Prod.mk.inj h1
      exact .inl ⟨hlt, rfl, rfl, rfl⟩
    · next hlt =>
      obtain ⟨h1, h2, h3⟩ := allocLoop_ok (by omega) (pgroundup_mod _) ha h hr
      exact .inr ⟨by omega, h1, h2, h3⟩

theorem allocuvm_counts {oldsz newsz r : Nat} (ha : Acct dom s (d.kernRefs + own) (d.userRefs + sh))
    (h : allocuvm ld d oldsz newsz s = .ok ((d', r), s')) (hr : r ≠ 0) :
    (∀ p, 0 < d.userRefs p + sh p → d'.userRefs p = d.userRefs p) ∧
    ∀ va < KERNBASE, (d'.get va).present = true → d'.get va = d.get va ∨
      d'.userRefs (d'.get va).ppn = 1 ∧ sh (d'.get va).ppn = 0 := by
  obtain ⟨-, hok⟩ := allocuvm_ok ha h hr
  rcases hok with ⟨-, -, rfl, -⟩ | ⟨hle, -, hg, -⟩
  · exact ⟨fun _ _ => rfl, fun _ _ _ => .inl rfl⟩
  · unfold allocuvm at h
    split at h
    · obtain ⟨h1, rfl⟩ := Prod.mk.inj (pure_ok h)
      exact absurd (Prod.mk.inj h1).2 hr
    · next hnew =>
      rw [if_neg (by omega)] at h
      obtain ⟨hold, hcnt⟩ := allocLoop_counts (by omega) (pgroundup_mod _) ha h hr
      refine ⟨hold, fun va hva _ => ?_⟩
      by_cases hin : pgroundup oldsz ≤ va ∧ va / PGSIZE * PGSIZE < newsz
      · exact .inr (hcnt va hin.1 hin.2)
      · exact .inl (hg.out va (by simp only [KERNBASE] at *; omega) (by omega))

theorem private_allocuvm {oldsz newsz r : Nat} (ha : Acct dom s (d.kernRefs + own) (d.userRefs + sh))
    (h : allocuvm ld d oldsz newsz s = .ok ((d', r), s')) (hr : r ≠ 0) (hd : Private d sh) :
    Private d' sh := by
  obtain ⟨hold, hnew⟩ := allocuvm_counts ha h hr
  intro va hva hp
  rcases hnew va hva hp with heq | hc
  · rw [heq] at hp ⊢
    obtain ⟨h1, h2⟩ := hd va hva hp
    rw [hold _ (by omega)]
    exact ⟨h1, h2⟩
  · exact hc

theorem allocuvm_fail {oldsz newsz : Nat} (ha : Acct dom s (d.kernRefs + own) (d.userRefs + sh))
    (h : allocuvm ld d oldsz newsz s = .ok ((d', 0), s')) :
    (∀ b, d'.get b = d.get b) ∧ d.Ext d' ∨ oldsz ≤ newsz ∧ newsz < KERNBASE ∧ Undone oldsz newsz d d' := by
  unfold allocuvm at h
  split at h
  · obtain ⟨h1, rfl⟩ := Prod.mk.inj (pure_ok h)
    obtain ⟨rfl, -⟩ := Prod.mk.inj h1
    exact .inl ⟨fun _ => rfl, .refl _⟩
  · next hnew =>
    split at h
    · next hlt =>
      obtain ⟨h1, rfl⟩ := Prod.mk.inj (pure_ok h)
      obtain ⟨rfl, -⟩ := Prod.mk.inj h1
      exact .inl ⟨fun _ => rfl, .refl _⟩
    · next hlt =>
      by_cases hpos : 0 < newsz
      · exact .inr ⟨by omega, by omega,
          allocLoop_fail (by omega) (by omega) (pgroundup_mod _) (Nat.le_refl _) ha h rfl hpos⟩
      · rcases allocLoop_cases h with ⟨-, rfl, -, -⟩ | ⟨hc, -⟩ | ⟨hc, -⟩ | ⟨hc, -⟩
        · exact .inl ⟨fun _ => rfl, .refl _⟩
        all_goals omega

theorem allocLoop_tab {oldsz newsz n a r i : Nat} (hnew : newsz ≤ KERNBASE) (hal : a % PGSIZE = 0)
    (hi : ∀ b, b / PGSIZE * PGSIZE < newsz → pdx b ≠ i)
    (h : allocLoop ld oldsz newsz n d a s = .ok ((d', r), s')) (hr : r ≠ 0) : d'.tab i = d.tab i := by
  induction n generalizing d a s with
  | zero =>
    obtain ⟨-, rfl, -, -⟩ := allocLoop_zero h
    rfl
  | succ n ih =>
    rcases allocLoop_cases h with ⟨-, rfl, -, -⟩ | ⟨-, -, -, -, -, hz⟩ |
      ⟨hlt, q, s1, d1, s2, -, hm, h⟩ | ⟨-, -, -, -, -, -, -, -, -, -, -, hz⟩
    · rfl
    · exact absurd hz hr
    · have heq : mappages d a PGSIZE (q * PGSIZE) userPerm = mapLoop userPerm 0 d a (q * PGSIZE) :=
        mappages_eq hal (by decide) (by decide) (by simp only [KERNBASE, PGSIZE] at *; omega)
      rw [heq] at hm
      have h1 : d1.tab i = d.tab i := mapLoop_tab (by simp only [KERNBASE, PGSIZE] at *; omega)
        (fun b hb1 hb2 => hi b (by simp only [PGSIZE] at *; omega)) hm
      rw [u32_of_lt (by simp only [KERNBASE, PGSIZE] at *; omega)] at h
      rw [ih (by simp only [PGSIZE] at *; omega) h, h1]
    · exact absurd hz hr

theorem allocuvm_tab {oldsz newsz r i : Nat} (hi : ∀ b, b / PGSIZE * PGSIZE < newsz → pdx b ≠ i)
    (h : allocuvm ld d oldsz newsz s = .ok ((d', r), s')) (hr : r ≠ 0) : d'.tab i = d.tab i := by
  unfold allocuvm at h
  split at h
  · obtain ⟨rfl, -, -⟩ := pure_pair_ok h
    rfl
  · split at h
    · obtain ⟨rfl, -, -⟩ := pure_pair_ok h
      rfl
    · exact allocLoop_tab (by omega) (pgroundup_mod _) hi h hr

end Xv6.Vm
