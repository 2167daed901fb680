import Xv6.Smp.Account

/-!
# Every step of every CPU

`CoW_handler` tests the count and lowers it in two steps. When the last other reference goes away
in between, its `decr_refc` takes the count to 0 and nobody frees the page. Apart from that, no
step loses a page.
-/

open Xv6.Cmd Xv6.Pool Xv6.Run Xv6.Sys Xv6.Vm Function

namespace Xv6.Smp

variable {ld : Linker} {lost : List Nat} {s s' : Cpus} {i : Fin NPROC} {p : Proc}

/-! ## `CoW_handler` -/

theorem inv_kalloc {va pa mem : Nat} {ph : Phys} (h : Inv ld lost s) (hp : s.m.proc i = some p)
    (hj : s.job i = .kalloc va pa) (hk : Vm.kalloc s.m.phys = .ok (some mem, ph)) :
    Inv ld lost (s.put i ph (some p) (.memmove va pa mem)) := by
  have hw := h.wf i p hp
  have ha := h.frame hp
  rw [hj] at hw ha
  obtain ⟨-, -, hmem, ha⟩ := acct_kalloc ha hk
  refine inv_put h (ha.congr (fun q => ?_) fun q => ?_) (fun q hq => ?_)
    fun _ hx => Option.some.inj hx ▸ hw
  · simp only [slotKern, jobKern, Pi.add_apply]
    omega
  · simp only [slotUser, jobUser, Pi.add_apply]
  · rcases kalloc_cases hk with ⟨hc, -⟩ | ⟨r, rest, hr, -, rfl⟩
    · cases hc
    · obtain rfl := Option.some.inj hr
      have hne : q ≠ mem := by
        rintro rfl
        exact hmem.2 hq
      have hset : update s.m.phys.refc_cnt mem 1 q = s.m.phys.refc_cnt q :=
        update_of_ne hne _ _
      exact ⟨(h.lost q hq).1, hset.trans (h.lost q hq).2⟩

theorem inv_setPte {va pa mem : Nat} (h : Inv ld lost s) (hp : s.m.proc i = some p)
    (hj : s.job i = .setPte va pa mem) :
    Inv ld lost (s.put i s.m.phys (some { p with pgdir := p.pgdir.set va (cowPte mem) })
      (.decrRefc pa)) := by
  have hw := h.wf i p hp
  have ha := h.frame hp
  rw [hj] at hw ha
  obtain ⟨hsz, hva, hpr, hpa⟩ := hw
  have ha1 : Acct (Tracked ld lost) s.m.phys
      (s.ownRest i + (one p.kstack + p.pgdir.kernRefs) + one mem)
      (s.sharedRest i + p.pgdir.userRefs) :=
    ha.congr (fun q => by simp only [jobKern, Pi.add_apply]; omega)
      fun q => by simp only [jobUser, Pi.add_apply]
  refine inv_put h ((Holds.publish ha1).congr (fun q => ?_) fun q => ?_) h.lost
    fun _ hx => Option.some.inj hx ▸ ⟨hsz, trivial⟩
  · simp only [slotKern, jobKern, Pi.add_apply, PgDir.kernRefs_set]
  · have := PgDir.userRefs_set (e := cowPte mem) (PgDir.hasTab_of_present hpr) hva q
    rw [Pte.holds_of_present hpr, hpa, Pte.holds_of_present rfl] at this
    simp only [slotUser, jobUser, Pi.add_apply]
    change _ = _ + (one mem) q at this
    omega

/-- `decr_refc` keeps the counts exact when it leaves a reference, and loses the page otherwise. -/
theorem inv_decrRefc {pa : Nat} (h : Inv ld lost s) (hp : s.m.proc i = some p)
    (hj : s.job i = .decrRefc pa) :
    (1 < s.m.phys.refc_cnt pa ∧ Inv ld lost
      (s.put i (s.m.phys.setRefc pa (s.m.phys.refc_cnt pa - 1)) (some p) .idle)) ∨
    (s.m.phys.refc_cnt pa = 1 ∧ Inv ld (pa :: lost)
      (s.put i (s.m.phys.setRefc pa (s.m.phys.refc_cnt pa - 1)) (some p) .idle)) := by
  have hsz := (h.wf i p hp).1
  have ha := h.frame hp
  rw [hj] at ha
  replace ha : Acct (Tracked ld lost) s.m.phys
      (s.ownRest i + slotKern (some p) .idle) (s.sharedRest i + slotUser (some p) .idle + one pa) :=
    ha.congr (fun q => by simp only [slotKern, jobKern, Pi.add_apply])
      fun q => by simp only [slotUser, jobUser, Pi.add_apply]; omega
  have hpa : Tracked ld lost pa := ha.inDom pa (by simp)
  have hold : ∀ q ∈ lost, Managed ld q ∧
      (s.m.phys.setRefc pa (s.m.phys.refc_cnt pa - 1)).refc_cnt q = 0 := by
    intro q hq
    have hne : q ≠ pa := by
      rintro rfl
      exact hpa.2 hq
    exact ⟨(h.lost q hq).1, (update_of_ne hne _ _).trans (h.lost q hq).2⟩
  have hw : ∀ p', some p = some p' → p'.sz ≤ KERNBASE ∧ JobWf p' .idle :=
    fun _ hx => Option.some.inj hx ▸ ⟨hsz, trivial⟩
  by_cases hlast : (s.sharedRest i + slotUser (some p) .idle) pa = 0
  · obtain ⟨hc, ha⟩ := Holds.lose ha hlast
    refine .inr ⟨hc, inv_put h (Holds.of_dom ha fun q => ?_) ?_ hw⟩
    · simp only [Tracked, List.mem_cons, not_or]
      tauto
    · intro q hq
      rcases List.mem_cons.mp hq with rfl | hq
      · refine ⟨hpa.1, ?_⟩
        simp [Phys.setRefc, hc]
      · exact hold q hq
  · obtain ⟨hc, ha⟩ := Holds.release ha (by omega)
    exact .inl ⟨hc, inv_put h ha hold hw⟩

theorem inv_setWrite {va : Nat} (h : Inv ld lost s) (hp : s.m.proc i = some p)
    (hj : s.job i = .setWrite va) :
    Inv ld lost (s.put i s.m.phys
      (some { p with pgdir := p.pgdir.set va (p.pgdir.get va).writeOk }) .idle) := by
  have hw := h.wf i p hp
  rw [hj] at hw
  obtain ⟨hsz, hva, hpr⟩ := hw
  refine inv_local h hp (fun q => ?_) (fun q => ?_) hsz trivial
  · rw [hj]
    simp only [jobKern, PgDir.kernRefs_set]
  · rw [hj]
    have := PgDir.userRefs_set (e := (p.pgdir.get va).writeOk) (PgDir.hasTab_of_present hpr) hva q
    have hsame : (p.pgdir.get va).writeOk.holds q = (p.pgdir.get va).holds q := rfl
    simp only [jobUser]
    omega

/-! ## `deallocuvm` and `freevm` -/

theorem LoopWf.skip {oldsz a b : Nat} {k : After} (h : LoopWf p oldsz a k) (hb : b % PGSIZE = 0)
    (hskip : ∀ c < KERNBASE, a ≤ c → c < b → (p.pgdir.get c).present = false) :
    LoopWf p oldsz b k := by
  obtain ⟨h1, -, h3⟩ := h
  refine ⟨h1, hb, ?_⟩
  cases k with
  | growproc newsz => exact h3
  | freevm =>
    refine ⟨h3.1, fun c hc hcb => ?_⟩
    by_cases hca : c < a
    · exact h3.2 c hc hca
    · exact hskip c hc (by omega) hcb

theorem LoopWf.no_tab {oldsz a : Nat} {k : After} (h : LoopWf p oldsz a k) (ha : a < oldsz)
    (ht : ¬ p.pgdir.HasTab a) : LoopWf p oldsz (pgaddr (pdx a + 1)) k := by
  have hold := h.1
  have hnext : pgaddr (pdx a + 1) = (a / 0x400000 + 1) * 0x400000 := by
    simp only [pgaddr, pdx, u32, KERNBASE] at *; omega
  rw [hnext]
  refine h.skip (by simp only [PGSIZE]; omega) fun c _ hac hcb => ?_
  have hsame : pdx c = pdx a := by simp only [pdx]; omega
  have hno : ¬ p.pgdir.HasTab c := by simpa [PgDir.HasTab, hsame] using ht
  rw [PgDir.get_of_no_tab hno]
  rfl

theorem LoopWf.absent {oldsz a : Nat} {k : After} (h : LoopWf p oldsz a k) (ha : a < oldsz)
    (hp : (p.pgdir.get a).present = false) : LoopWf p oldsz (u32 (a + PGSIZE)) k := by
  obtain ⟨hold, hal, -⟩ := id h
  have hnext : u32 (a + PGSIZE) = a + PGSIZE :=
    u32_of_lt (by simp only [PGSIZE, KERNBASE] at *; omega)
  rw [hnext]
  refine h.skip (by simp only [PGSIZE] at *; omega) fun c _ hac hcb => ?_
  have hpage : c / PGSIZE * PGSIZE = a := by simp only [PGSIZE] at *; omega
  rw [← PgDir.get_page, hpage]
  exact hp

/-- `*pte = 0` makes true what the `kfree` before it has counted. -/
theorem inv_clear {oldsz a : Nat} {k : After} (h : Inv ld lost s) (hp : s.m.proc i = some p)
    (hj : s.job i = .clear oldsz a k) :
    Inv ld lost (s.put i s.m.phys (some { p with pgdir := p.pgdir.set a .zero })
      (.dealloc oldsz (u32 (a + PGSIZE)) k)) := by
  have hw := h.wf i p hp
  rw [hj] at hw
  obtain ⟨hsz, hloop, ha, hpr⟩ := hw
  have htab := PgDir.hasTab_of_present hpr
  have ha32 : a < 0x100000000 := by
    have := hloop.1
    simp only [KERNBASE] at this
    omega
  have hset : ∀ b < KERNBASE, ((p.pgdir.set a .zero).get b).present = true →
      (p.pgdir.get b).present = true := by
    intro b hb hpres
    have hb32 : b < 0x100000000 := Nat.lt_trans hb (by decide)
    rw [PgDir.get_set htab ha32 hb32] at hpres
    split at hpres
    · cases hpres
    · exact hpres
  refine inv_local h hp (fun q => ?_) (fun q => ?_) hsz (LoopWf.absent ?_ ha ?_)
  · rw [hj]
    cases k <;> simp only [jobKern, stackRef, PgDir.kernRefs_set]
  · rw [hj]
    simp only [jobUser]
  · obtain ⟨h1, h2, h3⟩ := hloop
    refine ⟨h1, h2, ?_⟩
    cases k with
    | growproc newsz => exact h3
    | freevm =>
      refine ⟨h3.1, fun b hb hba => ?_⟩
      by_contra hc
      have := hset b hb (by simpa using hc)
      rw [h3.2 b hb hba] at this
      cases this
  · dsimp only
    rw [PgDir.get_set_self htab]
    rfl

theorem inv_dealloc {oldsz a : Nat} {k : After} (h : Inv ld lost s) (hp : s.m.proc i = some p)
    (hj : s.job i = .dealloc oldsz a k) (hn : deallocStep ld s i p oldsz a k = some s') :
    Inv ld lost s' := by
  have hw := h.wf i p hp
  rw [hj] at hw
  obtain ⟨hsz, hloop⟩ := hw
  unfold deallocStep at hn
  by_cases ha : a < oldsz
  · rw [if_pos ha] at hn
    have hak : a < KERNBASE := Nat.lt_of_lt_of_le ha hloop.1
    split at hn
    · next ht =>
      obtain rfl := Option.some.inj hn
      exact inv_local h hp (fun q => by rw [hj]; simp only [jobKern])
        (fun q => by rw [hj]; simp only [jobUser]) hsz
        (hloop.no_tab ha (by simpa [PgDir.HasTab] using ht))
    · split at hn
      · next hpr =>
        split at hn
        · cases hn
        · obtain ⟨ph, hf, rfl⟩ := Option.map_eq_some_iff.mp hn
          refine inv_free_sh h hp hf (fun r => ?_) (fun r => ?_)
            fun _ hx => Option.some.inj hx ▸ ⟨hsz, hloop, ha, hpr⟩
          · rw [hj]
            simp only [slotKern, jobKern]
          · rw [hj]
            have := userRefs_clear hpr hak r
            simp only [slotUser, jobUser]
            omega
      · next hpr =>
        obtain rfl := Option.some.inj hn
        exact inv_local h hp (fun q => by rw [hj]; simp only [jobKern])
          (fun q => by rw [hj]; simp only [jobUser]) hsz (hloop.absent ha (by simpa using hpr))
  · rw [if_neg ha] at hn
    cases k with
    | growproc newsz =>
      obtain rfl := Option.some.inj hn
      refine inv_local h hp (fun q => by rw [hj]; simp only [jobKern, stackRef])
        (fun q => by rw [hj]; simp only [jobUser]) ?_ trivial
      dsimp only
      split
      · exact hsz
      · exact hloop.2.2
    | freevm =>
      obtain rfl := Option.some.inj hn
      refine inv_local h hp (fun q => ?_) (fun q => by rw [hj]; simp only [jobUser]) hsz
        fun va hva => hloop.2.2.2 va hva (by have := hloop.2.2.1; omega)
      rw [hj]
      simp only [jobKern, stackRef, kernRefs_eq]
      omega

theorem inv_freeTabs {is : List Nat} (h : Inv ld lost s) (hp : s.m.proc i = some p)
    (hj : s.job i = .freeTabs is) (hn : freeTabsStep ld s i p is = some s') :
    Inv ld lost s' := by
  have hw := h.wf i p hp
  rw [hj] at hw
  have huser : ∀ j, s.job i = .freeTabs is → (j = .freeDir ∨ ∃ js, j = .freeTabs js) →
      ∀ q, jobUser p j q = jobUser p (s.job i) q := by
    rintro j - (rfl | ⟨js, rfl⟩) q <;> rw [hj] <;> simp only [jobUser]
  cases is with
  | nil =>
    obtain rfl := Option.some.inj hn
    refine inv_local h hp (fun q => ?_) (huser _ hj (.inl rfl)) hw.1 hw.2
    rw [hj]
    simp [jobKern, tabRefs]
  | cons t is =>
    rw [freeTabsStep] at hn
    cases ht : p.pgdir.tab t with
    | none =>
      rw [ht] at hn
      obtain rfl := Option.some.inj hn
      refine inv_local h hp (fun q => ?_) (huser _ hj (.inr ⟨is, rfl⟩)) hw.1 hw.2
      rw [hj]
      simp [jobKern, tabRefs, tabRef, ht]
    | some tab =>
      rw [ht] at hn
      obtain ⟨ph, hf, rfl⟩ := Option.map_eq_some_iff.mp hn
      refine inv_free_own h hp hf (fun q => ?_) (fun q => (huser _ hj (.inr ⟨is, rfl⟩) q).symm)
        fun _ hx => Option.some.inj hx ▸ hw
      rw [hj]
      simp only [slotKern, jobKern, tabRefs, tabRef, List.map_cons, ht, List.sum_cons]
      omega

theorem inv_freeDir {ph : Phys} (h : Inv ld lost s) (hp : s.m.proc i = some p)
    (hj : s.job i = .freeDir) (hf : free ld s.m.phys p.pgdir.page = some ph) :
    Inv ld lost (s.put i ph none .idle) := by
  have hw := h.wf i p hp
  rw [hj] at hw
  refine inv_free_own h hp hf (fun q => ?_) (fun q => ?_) fun _ hx => by cases hx
  · rw [hj]
    simp only [slotKern, jobKern, Nat.zero_add]
  · rw [hj]
    simp only [slotUser, jobUser]
    exact PgDir.userRefs_eq_zero hw.2 q

/-! ## One step -/

theorem start_some {f : Proc → Option Cpus} (h : start s i f = some s') :
    ∃ p, s.job i = .idle ∧ s.m.proc i = some p ∧ f p = some s' := by
  unfold start at h
  split at h
  · next p hj hp => exact ⟨p, hj, hp, h⟩
  · cases h

theorem inv_stepJob (h : Inv ld lost s) (hp : s.m.proc i = some p) (hj : ∀ pa, s.job i ≠ .decrRefc pa)
    (hn : stepJob ld s i p (s.job i) = some s') : Inv ld lost s' := by
  have hw := h.wf i p hp
  cases hjob : s.job i with
  | idle => rw [hjob] at hn; cases hn
  | decrRefc pa => exact absurd hjob (hj pa)
  | getRefc va pa =>
    rw [hjob] at hw hn
    simp only [stepJob] at hn
    split at hn <;> obtain rfl := Option.some.inj hn
    · exact inv_local h hp (fun q => by rw [hjob]; simp only [jobKern])
        (fun q => by rw [hjob]; simp only [jobUser]) hw.1 hw.2
    · exact inv_local h hp (fun q => by rw [hjob]; simp only [jobKern])
        (fun q => by rw [hjob]; simp only [jobUser]) hw.1 ⟨hw.2.1, hw.2.2.1⟩
  | kalloc va pa =>
    rw [hjob] at hn
    simp only [stepJob] at hn
    split at hn
    · next mem ph hk =>
      obtain rfl := Option.some.inj hn
      exact inv_kalloc h hp hjob hk
    · cases hn
  | memmove va pa mem =>
    rw [hjob] at hw hn
    obtain rfl := Option.some.inj hn
    have ha := h.frame hp
    rw [hjob] at ha
    refine inv_put h (ha.congr (fun q => ?_) fun q => ?_) h.lost fun _ hx => Option.some.inj hx ▸ hw
    · simp only [slotKern, jobKern, Pi.add_apply]
    · simp only [slotUser, jobUser, Pi.add_apply]
  | setPte va pa mem =>
    rw [hjob] at hn
    obtain rfl := Option.some.inj hn
    exact inv_setPte h hp hjob
  | setWrite va =>
    rw [hjob] at hn
    obtain rfl := Option.some.inj hn
    exact inv_setWrite h hp hjob
  | dealloc oldsz a k => rw [hjob] at hn; exact inv_dealloc h hp hjob hn
  | clear oldsz a k =>
    rw [hjob] at hn
    obtain rfl := Option.some.inj hn
    exact inv_clear h hp hjob
  | freeTabs is => rw [hjob] at hn; exact inv_freeTabs h hp hjob hn
  | freeDir =>
    rw [hjob] at hn
    obtain ⟨ph, hf, rfl⟩ := Option.map_eq_some_iff.mp hn
    exact inv_freeDir h hp hjob hf

theorem inv_begin {l : Lbl} (h : Inv ld lost s) (hu : UserFault s l) (hl : ∀ i, l ≠ .step i)
    (hn : next ld s l = some s') : Inv ld lost s' := by
  cases l with
  | step i => exact absurd rfl (hl i)
  | fault i va =>
    obtain ⟨p, hj, hp, hn⟩ := start_some hn
    have hsz := (h.wf i p hp).1
    split at hn
    · cases hn
    · split at hn
      · split at hn
        · cases hn
        · obtain rfl := Option.some.inj hn
          exact inv_local h hp (fun q => by rw [hj]; simp only [jobKern])
            (fun q => by rw [hj]; simp only [jobUser]) hsz trivial
      · next hpr =>
        obtain rfl := Option.some.inj hn
        rw [not_or] at hpr
        exact inv_local h hp (fun q => by rw [hj]; simp only [jobKern])
          (fun q => by rw [hj]; simp only [jobUser]) hsz ⟨hu, by simpa using hpr.2, rfl⟩
  | shrink i newsz =>
    obtain ⟨p, hj, hp, hn⟩ := start_some hn
    have hsz := (h.wf i p hp).1
    split at hn
    · next hlt =>
      obtain rfl := Option.some.inj hn
      exact inv_local h hp (fun q => by rw [hj]; simp only [jobKern, stackRef])
        (fun q => by rw [hj]; simp only [jobUser]) hsz
        ⟨hsz, pgroundup_mod _, Nat.le_trans (Nat.le_of_lt hlt.2) hsz⟩
    · cases hn
  | wait i =>
    obtain ⟨p, hj, hp, hn⟩ := start_some hn
    have hsz := (h.wf i p hp).1
    split at hn
    · obtain ⟨ph, hf, rfl⟩ := Option.map_eq_some_iff.mp hn
      refine inv_free_own h hp hf (fun q => ?_) (fun q => ?_) fun _ hx =>
        Option.some.inj hx ▸ ⟨hsz, Nat.le_refl _, rfl, rfl, fun b _ hb => absurd hb (Nat.not_lt_zero b)⟩
      · rw [hj]
        simp only [slotKern, jobKern, stackRef]
        omega
      · rw [hj]
        simp only [slotUser, jobUser]
    · cases hn

/-- A step keeps the counts exact, or it is a `decr_refc` of the last reference and loses a page. -/
theorem inv_next {l : Lbl} (h : Inv ld lost s) (hu : UserFault s l) (hn : next ld s l = some s') :
    (DecrOk s l ∧ Inv ld lost s') ∨ (¬ DecrOk s l ∧ ∃ q, Inv ld (q :: lost) s') := by
  cases l with
  | step i =>
    obtain ⟨p, hp, hn⟩ := Option.bind_eq_some_iff.mp hn
    by_cases hj : ∃ pa, s.job i = .decrRefc pa
    · obtain ⟨pa, hj⟩ := hj
      rw [hj] at hn
      obtain rfl := Option.some.inj hn
      simp only [DecrOk, hj]
      rcases inv_decrRefc h hp hj with ⟨hc, hinv⟩ | ⟨hc, hinv⟩
      · exact .inl ⟨hc, hinv⟩
      · exact .inr ⟨by omega, pa, hinv⟩
    · have hj' : ∀ pa, s.job i ≠ .decrRefc pa := fun pa hc => hj ⟨pa, hc⟩
      refine .inl ⟨?_, inv_stepJob h hp hj' hn⟩
      simp only [DecrOk]
  | fault i va => exact .inl ⟨trivial, inv_begin h hu (fun _ hc => by cases hc) hn⟩
  | shrink i newsz => exact .inl ⟨trivial, inv_begin h hu (fun _ hc => by cases hc) hn⟩
  | wait i => exact .inl ⟨trivial, inv_begin h hu (fun _ hc => by cases hc) hn⟩

/-! ## Whole runs -/

/-- A run loses a page with each `decr_refc` of a last reference, and with no other step. -/
theorem lost_along {s0 : Cpus} {tr : List (Cpus × Lbl)} (h : Inv ld [] s0)
    (hrun : Path (Next (next ld)) s0 tr s) (hu : Meets UserFault tr) :
    ∃ lost, Inv ld lost s ∧ (lost = [] ↔ Meets DecrOk tr) := by
  induction hrun with
  | nil => exact ⟨[], h, by simp [Meets]⟩
  | snoc _ hs ih =>
    rw [meets_snoc] at hu
    obtain ⟨lost, hinv, hiff⟩ := ih hu.1
    rcases inv_next hinv hu.2 hs with ⟨hok, hinv'⟩ | ⟨hbad, q, hinv'⟩
    · exact ⟨lost, hinv', by rw [meets_snoc, hiff]; simp [hok]⟩
    · exact ⟨q :: lost, hinv', by rw [meets_snoc]; simp [hbad]⟩

theorem decrOk_of_accounting {s0 : Cpus} {tr : List (Cpus × Lbl)} (h : Inv ld [] s0)
    (hrun : Path (Next (next ld)) s0 tr s) (hu : Meets UserFault tr) (hq : Quiet s)
    (ha : Accounting ld s.m) : Meets DecrOk tr := by
  obtain ⟨lost, hinv, hiff⟩ := lost_along h hrun hu
  exact hiff.mp ((accounting_iff hinv hq).mp ha)

theorem accounting_of_decrOk {s0 : Cpus} {tr : List (Cpus × Lbl)} (h : Inv ld [] s0)
    (hrun : Path (Next (next ld)) s0 tr s) (hu : Meets UserFault tr) (hok : Meets DecrOk tr) :
    Along (fun s => Quiet s → Accounting ld s.m) tr s := by
  have hboth : Meets (fun s l => UserFault s l ∧ DecrOk s l) tr := fun x hx => ⟨hu x hx, hok x hx⟩
  have hall : Along (Inv ld []) tr s := by
    refine along_of_step ?_ hrun h hboth
    rintro s l s' hinv ⟨hu, hd⟩ hs
    rcases inv_next hinv hu hs with ⟨-, hinv'⟩ | ⟨hbad, -⟩
    · exact hinv'
    · exact absurd hd hbad
  exact hall.mono fun s hinv hs => (accounting_iff hinv hs).mpr rfl

end Xv6.Smp
