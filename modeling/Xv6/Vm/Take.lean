import Xv6.Vm.Kvm

/-!
# Taking pages for page tables

A call that only adds tables and entries takes pages from the front of the free list. Which pages it
takes, and how many, follows from the tables it adds: `setupkvm` takes 65 pages or gives back all
that it took.
-/

open Xv6.Cmd Xv6.Pool Function List

namespace Xv6.Vm

variable {ld : Linker} {dom : Nat → Prop} {s s' s'' : Phys} {own sh : Nat → Nat} {d d' d'' : PgDir}
  {t t' : List Nat}

/-! ## The free list -/

/-- The pages on the free list are different pages without references, and `kfree` accepts them. -/
structure FreeOk (ld : Linker) (s : Phys) : Prop where
  nodup : s.freelist.Nodup
  managed : ∀ p ∈ s.freelist, Managed ld p
  count : ∀ p ∈ s.freelist, s.refc_cnt p = 0

theorem FreeOk.acct (h : FreeOk ld s) : Acct (· ∈ s.freelist) s 0 0 where
  inDom p hp := by simp at hp
  count p hp := by simpa using h.count p hp
  single _ := Nat.zero_le _
  excl _ _ := rfl
  nodup := h.nodup
  mem p := by simp

theorem freeOk_of_acct (hdom : ∀ p, dom p → Managed ld p) (h : Acct dom s own sh) : FreeOk ld s where
  nodup := h.nodup
  managed p hp := hdom p ((h.mem p).mp hp).1
  count p hp := by
    obtain ⟨hd, h0⟩ := (h.mem p).mp hp
    rw [h.count p hd]
    omega

/-- `s'` comes from `s` by taking the pages `t`. Each has one reference and is cleared. -/
structure Took (t : List Nat) (s s' : Phys) : Prop where
  free : s.freelist = t ++ s'.freelist
  count : ∀ p, s'.refc_cnt p = if p ∈ t then 1 else s.refc_cnt p
  mem : ∀ p, s'.mem p = if p ∈ t then fun _ => 0 else s.mem p

theorem Took.refl (s : Phys) : Took [] s s := ⟨rfl, fun _ => by simp, fun _ => by simp⟩

theorem Took.trans (h : Took t s s') (h' : Took t' s' s'') : Took (t ++ t') s s'' where
  free := by rw [h.free, h'.free, append_assoc]
  count p := by
    rw [h'.count, h.count]
    by_cases h1 : p ∈ t <;> by_cases h2 : p ∈ t' <;> simp [h1, h2]
  mem p := by
    rw [h'.mem, h.mem]
    by_cases h1 : p ∈ t <;> by_cases h2 : p ∈ t' <;> simp [h1, h2]

theorem Took.length (h : Took t s s') : s.freelist.length = t.length + s'.freelist.length := by
  rw [h.free, length_append]

theorem Took.kept {p : Nat} (h : Took t s s') (hp : p ∉ s.freelist) : s'.mem p = s.mem p := by
  rw [h.mem, if_neg]
  intro ht
  exact hp (by rw [h.free]; exact mem_append_left _ ht)

theorem kalloc_runs (s : Phys) : ∃ r s', kalloc s = .ok (r, s') := by
  unfold kalloc
  split
  · exact ⟨_, _, rfl⟩
  · exact ⟨_, _, rfl⟩

theorem took_kalloc {p : Nat} (h : kalloc s = .ok (some p, s')) : Took [p] s (s'.setMem p fun _ => 0) := by
  rcases kalloc_cases h with ⟨hc, -⟩ | ⟨q, rest, hr, hf, rfl⟩
  · cases hc
  · obtain rfl := Option.some.inj hr
    refine ⟨hf, fun q => ?_, fun q => ?_⟩
    · by_cases hq : q = p
      · simp [hq, Phys.setMem, Phys.setRefc]
      · simp [hq, Phys.setMem, Phys.setRefc]
    · by_cases hq : q = p
      · simp [hq, Phys.setMem, Phys.setRefc]
      · simp [hq, Phys.setMem, Phys.setRefc]

theorem took_kalloc_none (h : kalloc s = .ok (none, s')) : Took [] s s' ∧ s'.freelist = [] := by
  rcases kalloc_cases h with ⟨-, hf, rfl⟩ | ⟨q, rest, hr, -⟩
  · exact ⟨⟨rfl, fun _ => by simp, fun _ => by simp⟩, hf⟩
  · cases hr

/-! ## The tables -/

/-- How many entries of the directory are empty. -/
def gaps (d : PgDir) : Nat := missing (Finset.range NPDENTRIES) d

/-- `d'` has the tables of `d` and new ones in the pages `t`. -/
structure NewTabs (t : List Nat) (d d' : PgDir) : Prop where
  page : d'.page = d.page
  old : ∀ i tb, d.tab i = some tb → ∃ tb', d'.tab i = some tb' ∧ tb'.page = tb.page
  new : ∀ p ∈ t, ∃ i tb, d.tab i = none ∧ d'.tab i = some tb ∧ tb.page = p
  count : gaps d' + t.length = gaps d

theorem NewTabs.refl (d : PgDir) : NewTabs [] d d :=
  ⟨rfl, fun _ tb h => ⟨tb, h, rfl⟩, by simp, Nat.add_zero _⟩

theorem NewTabs.trans (h : NewTabs t d d') (h' : NewTabs t' d' d'') : NewTabs (t ++ t') d d'' where
  page := h'.page.trans h.page
  old i tb hi := by
    obtain ⟨tb1, h1, hp1⟩ := h.old i tb hi
    obtain ⟨tb2, h2, hp2⟩ := h'.old i tb1 h1
    exact ⟨tb2, h2, hp2.trans hp1⟩
  new p hp := by
    rcases mem_append.mp hp with hp | hp
    · obtain ⟨i, tb, h1, h2, hp1⟩ := h.new p hp
      obtain ⟨tb2, h3, hp2⟩ := h'.old i tb h2
      exact ⟨i, tb2, h1, h3, hp2.trans hp1⟩
    · obtain ⟨i, tb, h1, h2, hp1⟩ := h'.new p hp
      refine ⟨i, tb, ?_, h2, hp1⟩
      cases hd : d.tab i with
      | none => rfl
      | some tb0 =>
        obtain ⟨tb1, h3, -⟩ := h.old i tb0 hd
        rw [h1] at h3
        cases h3
  count := by
    have h1 := h.count
    have h2 := h'.count
    rw [length_append]
    omega

theorem newTabs_set (d : PgDir) (va : Nat) (e : Pte) : NewTabs [] d (d.set va e) where
  page := PgDir.set_page d va e
  old i tb hi := by
    unfold PgDir.set
    split
    · next t ht =>
      by_cases hc : i = pdx va
      · subst hc
        rw [hi] at ht
        obtain rfl := Option.some.inj ht
        exact ⟨_, update_self _ _ _, rfl⟩
      · exact ⟨tb, (update_of_ne hc _ _).trans hi, rfl⟩
    · exact ⟨tb, hi, rfl⟩
  new := by simp
  count := (Nat.add_zero _).trans (missing_set _ d va e)

theorem newTabs_addTab {va p : Nat} (h : d.tab (pdx va) = none) : NewTabs [p] d (d.addTab (pdx va) p) where
  page := rfl
  old i tb hi := by
    refine ⟨tb, (update_of_ne ?_ _ _).trans hi, rfl⟩
    rintro rfl
    rw [h] at hi
    cases hi
  new q hq := by
    obtain rfl := mem_singleton.mp hq
    exact ⟨pdx va, _, h, update_self _ _ _, rfl⟩
  count := missing_addTab (Finset.mem_range.mpr (pdx_lt va)) h

/-! ## Adding tables -/

theorem walkpgdir_runs (d : PgDir) (va : Nat) (s : Phys) : ∃ d' ok s', walkpgdir d va s = .ok ((d', ok), s') := by
  unfold walkpgdir
  cases d.tab (pdx va) with
  | some tb => exact ⟨d, true, s, rfl⟩
  | none =>
    obtain ⟨r, s1, hk⟩ := kalloc_runs s
    cases r with
    | none => exact ⟨d, false, s1, bind_of_ok hk⟩
    | some p => exact ⟨_, true, _, bind_of_ok hk⟩

theorem walkpgdir_took {va : Nat} {ok : Bool} (h : walkpgdir d va s = .ok ((d', ok), s')) :
    ∃ t, Took t s s' ∧ NewTabs t d d' ∧ (ok = false → s'.freelist = []) := by
  rcases walkpgdir_cases h with ⟨-, rfl, rfl, rfl⟩ | ⟨-, hk, rfl, -⟩ | ⟨p, s1, ht, hk, rfl, rfl, rfl⟩
  · exact ⟨[], .refl _, .refl _, fun hc => by cases hc⟩
  · obtain ⟨h1, h2⟩ := took_kalloc_none hk
    exact ⟨[], h1, .refl _, fun _ => h2⟩
  · exact ⟨[p], took_kalloc hk, newTabs_addTab ht, fun hc => by cases hc⟩

theorem mapLoop_took {perm : Perm} {n a pa : Nat} {ok : Bool}
    (h : mapLoop perm n d a pa s = .ok ((d', ok), s')) :
    ∃ t, Took t s s' ∧ NewTabs t d d' ∧ (ok = false → s'.freelist = []) := by
  induction n generalizing d a pa s with
  | zero =>
    obtain ⟨d1, s1, w, hw, ⟨rfl, rfl, rfl, rfl⟩ | ⟨rfl, -, ⟨-, rfl, rfl, rfl⟩ | ⟨m, hm, -⟩⟩⟩ := mapLoop_cases h
    · exact walkpgdir_took hw
    · obtain ⟨t, ht, hn, -⟩ := walkpgdir_took hw
      refine ⟨t, ht, ?_, fun hc => by cases hc⟩
      simpa using hn.trans (newTabs_set d1 a (perm.pte (pa / PGSIZE)))
    · omega
  | succ n ih =>
    obtain ⟨d1, s1, w, hw, ⟨rfl, rfl, rfl, rfl⟩ | ⟨rfl, -, ⟨hn, -⟩ | ⟨m, hm, hrest⟩⟩⟩ := mapLoop_cases h
    · exact walkpgdir_took hw
    · omega
    · obtain rfl : m = n := by omega
      obtain ⟨t1, ht1, hn1, -⟩ := walkpgdir_took hw
      obtain ⟨t2, ht2, hn2, hfail⟩ := ih hrest
      refine ⟨t1 ++ t2, ht1.trans ht2, ?_, hfail⟩
      simpa using hn1.trans ((newTabs_set d1 a (perm.pte (pa / PGSIZE))).trans hn2)

theorem mapLoop_runs {n a : Nat} (perm : Perm) (pa : Nat) (ha : a % PGSIZE = 0)
    (hlt : a + n * PGSIZE < 0x100000000)
    (hnew : ∀ b, a ≤ b → b < a + n * PGSIZE + PGSIZE → (d.get b).present = false) (s : Phys) :
    ∃ d' ok s', mapLoop perm n d a pa s = .ok ((d', ok), s') := by
  induction n generalizing d a pa s with
  | zero =>
    obtain ⟨d1, ok, s1, hw⟩ := walkpgdir_runs d a s
    have hp := hnew a (Nat.le_refl _) (by simp only [PGSIZE]; omega)
    rw [← (walkpgdir_shape hw).2.1] at hp
    rw [mapLoop, bind_of_ok hw]
    cases ok with
    | false => exact ⟨d1, false, s1, rfl⟩
    | true => exact ⟨d1.set a (perm.pte (pa / PGSIZE)), true, s1, by simp [hp]⟩
  | succ n ih =>
    obtain ⟨d1, ok, s1, hw⟩ := walkpgdir_runs d a s
    have hp := hnew a (Nat.le_refl _) (by simp only [PGSIZE]; omega)
    rw [← (walkpgdir_shape hw).2.1] at hp
    rw [mapLoop, bind_of_ok hw]
    cases ok with
    | false => exact ⟨d1, false, s1, rfl⟩
    | true =>
      have hnext : u32 (a + PGSIZE) = a + PGSIZE := u32_of_lt (by simp only [PGSIZE] at *; omega)
      obtain ⟨d2, ok, s2, hl⟩ := ih (d := d1.set a (perm.pte (pa / PGSIZE))) (a := a + PGSIZE)
        (u32 (pa + PGSIZE)) (by simp only [PGSIZE] at *; omega) (by simp only [PGSIZE] at *; omega)
        (fun b h1 h2 => by
          rw [PgDir.get_set ((walkpgdir_shape hw).2.2 rfl) (by simp only [PGSIZE] at *; omega)
            (by simp only [PGSIZE] at *; omega), if_neg (by simp only [PGSIZE] at *; omega),
            (walkpgdir_shape hw).2.1]
          exact hnew b (by omega) (by simp only [PGSIZE] at *; omega)) s1
      refine ⟨d2, ok, s2, ?_⟩
      simp only [hp, Bool.true_eq_false, if_false, Bool.false_eq_true, hnext]
      exact hl

/-! ## The loop over `kmap` -/

theorem kmapLoop_took {ks : List Kmap} {ok : Bool} (hks : ∀ k ∈ ks, k.Fits)
    (h : kmapLoop ks d s = .ok ((d', ok), s')) : ∃ t, Took t s s' ∧ NewTabs t d d' := by
  induction ks generalizing d s with
  | nil =>
    obtain ⟨rfl, -, rfl⟩ := pure_pair_ok h
    exact ⟨[], .refl _, .refl _⟩
  | cons k ks ih =>
    obtain ⟨d1, s1, w, hm, hrest⟩ := kmapLoop_cases h
    rw [mappages_kmap (hks k (by simp))] at hm
    obtain ⟨t1, ht1, hn1, -⟩ := mapLoop_took hm
    rcases hrest with ⟨-, h⟩ | ⟨-, rfl, -, rfl⟩
    · obtain ⟨t2, ht2, hn2⟩ := ih (fun k' hk' => hks k' (by simp [hk'])) h
      exact ⟨t1 ++ t2, ht1.trans ht2, hn1.trans hn2⟩
    · exact ⟨t1, ht1, hn1⟩

theorem kmapLoop_runs {ks : List Kmap} (hks : ∀ k ∈ ks, k.Fits)
    (hdis : ks.Pairwise fun k k' => ∀ b, k.Covers b → ¬ k'.Covers b)
    (hnew : ∀ k ∈ ks, ∀ b, k.Covers b → (d.get b).present = false) (s : Phys) :
    ∃ d' ok s', kmapLoop ks d s = .ok ((d', ok), s') := by
  induction ks generalizing d s with
  | nil => exact ⟨d, true, s, rfl⟩
  | cons k ks ih =>
    have hk := hks k (by simp)
    have hp := hk.pages
    have hle := hk.virt_le
    obtain ⟨hdk, hdis⟩ := pairwise_cons.mp hdis
    obtain ⟨d1, ok, s1, hm⟩ := mapLoop_runs (d := d) (n := k.size / PGSIZE - 1) k.perm k.phys_start
      hk.virt_aligned (by simp only [PGSIZE] at *; omega)
      (fun b h1 h2 => hnew k (by simp) b ⟨h1, by omega⟩) s
    rw [← mappages_kmap hk] at hm
    cases ok with
    | false => exact ⟨d1, false, s1, bind_of_ok hm⟩
    | true =>
      obtain ⟨d2, ok, s2, hl⟩ := ih (d := d1) (fun k' hk' => hks k' (by simp [hk'])) hdis
        (fun k' hk' b hb => by
          have hfit := hks k' (by simp [hk'])
          have hb32 : b < 0x100000000 := by have := hb.2; have := hfit.virt_le; omega
          rw [(mappages_kmap_get hk hm).2.2 b hb32, if_neg fun hc => hdk k' hk' b hc hb]
          exact hnew k' (by simp [hk']) b hb) s1
      exact ⟨d2, ok, s2, (bind_of_ok hm).trans hl⟩

/-! ## `setupkvm` -/

theorem setupkvm_hasTab (h : setupkvm ld s = .ok (some d, s')) {i : Nat} (hi : i < NPDENTRIES) :
    (d.tab i).isSome ↔ i ∈ kernelTabs := by
  constructor
  · intro hs
    by_contra hc
    rw [setupkvm_tab hc h] at hs
    cases hs
  · intro hk
    have hva : (d.get (i * 0x400000)).present = true := by
      rw [kernelTabs, Finset.mem_union, Finset.mem_Ico, Finset.mem_Ico] at hk
      rw [setupkvm_shape h _ (by simp only [NPDENTRIES] at hi; omega), kernelPte]
      simp only [KERNBASE, PHYSTOP, DEVSPACE]
      split
      · rfl
      · rw [if_pos (by omega)]
    have hpdx : pdx (i * 0x400000) = i := by
      simp only [pdx, NPDENTRIES] at *
      omega
    have := PgDir.hasTab_of_present hva
    rwa [PgDir.HasTab, hpdx] at this

theorem setupkvm_gaps (h : setupkvm ld s = .ok (some d, s')) : gaps d = 960 := by
  have hfilter : (Finset.range NPDENTRIES).filter (fun i => (d.tab i).isNone) =
      Finset.range NPDENTRIES \ kernelTabs := by
    ext i
    simp only [Finset.mem_filter, Finset.mem_sdiff, Finset.mem_range, and_congr_right_iff]
    intro hi
    rw [← setupkvm_hasTab h hi]
    simp
  have hsub : kernelTabs ⊆ Finset.range NPDENTRIES := by
    intro i hi
    rw [kernelTabs, Finset.mem_union, Finset.mem_Ico, Finset.mem_Ico] at hi
    rw [Finset.mem_range, NPDENTRIES]
    omega
  rw [gaps, missing, hfilter, Finset.card_sdiff_of_subset hsub, kernelTabs_card, Finset.card_range,
    NPDENTRIES]

theorem setupkvm_took (h : setupkvm ld s = .ok (some d, s')) :
    ∃ t, Took (d.page :: t) s s' ∧ t.length = 64 := by
  have hgaps := setupkvm_gaps h
  rcases setupkvm_cases h with ⟨hc, -⟩ | ⟨p, s1, d1, ok, s2, hk, hl, ⟨-, hr, rfl⟩ | ⟨-, hc, -⟩⟩
  · cases hc
  · obtain rfl := Option.some.inj hr
    obtain ⟨t, ht, hn⟩ := kmapLoop_took (kmap_fits ld) hl
    have hzero : gaps { page := p, tab := fun _ => none } = 1024 := by
      simp [gaps, missing]
    have hcount := hn.count
    have hpage : d.page = p := hn.page
    refine ⟨t, ?_, by omega⟩
    rw [hpage]
    exact (took_kalloc hk).trans ht
  · cases hc

theorem setupkvm_runs (hdom : ∀ p, dom p → Managed ld p) (ha : Acct dom s own sh) :
    ∃ r s', setupkvm ld s = .ok (r, s') := by
  obtain ⟨r, s1, hk⟩ := kalloc_runs s
  cases r with
  | none => exact ⟨none, s1, bind_of_ok hk⟩
  | some p =>
    obtain ⟨ha1, -⟩ := acct_newdir ha hk
    obtain ⟨d, ok, s2, hl⟩ := kmapLoop_runs (d := { page := p, tab := fun _ => none }) (kmap_fits ld)
      (kmap_disjoint ld) (fun _ _ _ _ => rfl) (s1.setMem p fun _ => 0)
    have hset : setupkvm ld s = (if ok then pure (some d) else do freevm ld d; pure none : K _) s2 := by
      unfold setupkvm
      rw [bind_of_ok hk]
      refine (bind_of_ok (a := ()) rfl).trans ?_
      rw [if_neg (by decide), bind_of_ok hl]
    rw [hset]
    cases ok with
    | true => exact ⟨some d, s2, rfl⟩
    | false =>
      obtain ⟨ha2, -⟩ := acct_kmapLoop (kmap_fits ld) ha1 hl
      obtain ⟨s3, hfree⟩ := freevm_total hdom (ha2.add_userRefs (kmapLoop_absent (kmap_fits ld) hl))
      exact ⟨none, s3, bind_of_ok hfree⟩

/-! ## The whole map -/

/-- The kernel's map as `vm.c` documents it. Nothing in it is for the user. -/
structure Documented (ld : Linker) (d : PgDir) : Prop where
  mem : ∀ x < PHYSTOP, d.get (KERNBASE + x) =
    { ppn := x / PGSIZE
      present := true
      writable := !decide (KERNLINK ≤ KERNBASE + x ∧ KERNBASE + x < ld.data)
      user := false }
  dev : ∀ x < 0x100000000, DEVSPACE ≤ x → d.get x =
    { ppn := x / PGSIZE, present := true, writable := true, user := false }
  rest : ∀ va < 0x100000000, (d.get va).present = true →
    KERNBASE ≤ va ∧ va < KERNBASE + PHYSTOP ∨ DEVSPACE ≤ va
  user : ∀ va < 0x100000000, (d.get va).user = false

theorem documented_of_shape (h : ∀ va < 0x100000000, d.get va = kernelPte ld va) : Documented ld d where
  mem x hx := by
    rw [h _ (by simp only [KERNBASE, PHYSTOP] at *; omega), kernelPte, if_pos (by omega), Nat.add_sub_cancel_left,
      ← Bool.decide_and]
  dev x hx hd := by
    rw [h x hx, kernelPte, if_neg (by simp only [KERNBASE, PHYSTOP, DEVSPACE] at *; omega), if_pos hd]
  rest va hva hp := by
    rw [h va hva, kernelPte] at hp
    split at hp
    · next hm => exact .inl hm
    · split at hp
      · next hd => exact .inr hd
      · cases hp
  user va hva := by
    rw [h va hva, kernelPte]
    split
    · rfl
    · split <;> rfl

/-- `setupkvm` always returns. With 65 pages it returns the map of the kernel and no other entry. With
fewer it returns 0, and the free list has the pages it had. -/
theorem setupkvm_exact (hfree : FreeOk ld s) :
    ∃ r s', setupkvm ld s = .ok (r, s') ∧ (r = none ↔ s.freelist.length < 65) ∧
      (∀ d, r = some d → Documented ld d) ∧ (r = none → s'.freelist.Perm s.freelist) := by
  obtain ⟨r, s', h⟩ := setupkvm_runs hfree.managed hfree.acct
  refine ⟨r, s', h, ⟨fun hr => ?_, fun hlen => ?_⟩, fun d hr => ?_, fun hr => ?_⟩
  · by_contra hc
    obtain ⟨d, s1, h1, -⟩ := setupkvm_total ld (s := s) (by omega)
    rw [h, hr] at h1
    cases h1
  · cases r with
    | none => rfl
    | some d =>
      obtain ⟨t, ht, hlen'⟩ := setupkvm_took h
      have := ht.length
      rw [List.length_cons] at this
      omega
  · subst hr
    exact documented_of_shape (setupkvm_shape h)
  · subst hr
    have ha := (acct_setupkvm_none hfree.acct h).1
    exact (List.perm_ext_iff_of_nodup ha.nodup hfree.nodup).mpr fun q => by simpa using ha.mem q

/-- A memory in which the `n` pages from `first` on are free. -/
def freshPhys (first n : Nat) : Phys :=
  { freelist := List.range' first n, freecnt := 0, refc_cnt := 0, mem := fun _ _ => 0 }

theorem freeOk_fresh {first n : Nat} (h1 : ld.endAddr ≤ KERNBASE + first * PGSIZE)
    (h2 : (first + n) * PGSIZE ≤ PHYSTOP) : FreeOk ld (freshPhys first n) where
  nodup := nodup_range'
  managed p hp := by
    have := mem_range'_1.mp hp
    simp only [Managed, KERNBASE, PGSIZE, PHYSTOP] at *
    omega
  count _ _ := rfl

/-- A kernel of about a megabyte. -/
def smallKernel : Linker where
  data := 0x80108000
  endAddr := 0x80116000
  data_aligned := by decide
  text_lt := by decide
  data_lt := by decide
  data_le := by decide

/-- With 100 pages the page at `KERNBASE` is page 0 and cannot be used by a process. With 10 pages all
of them are free again. -/
theorem setupkvm_exact_on_ranges :
    (∃ d s', setupkvm smallKernel (freshPhys 0x400 100) = .ok (some d, s') ∧
      d.get KERNBASE = { ppn := 0, present := true, writable := true, user := false }) ∧
    ∃ s', setupkvm smallKernel (freshPhys 0x400 10) = .ok (none, s') ∧
      s'.freelist.Perm (List.range' 0x400 10) := by
  have hfree : ∀ n ≤ 100, FreeOk smallKernel (freshPhys 0x400 n) := fun n hn =>
    freeOk_fresh (by decide) (by simp only [PGSIZE, PHYSTOP]; omega)
  constructor
  · obtain ⟨r, s', h, hnone, hmap, -⟩ := setupkvm_exact (hfree 100 (by decide))
    cases r with
    | none => exact absurd (hnone.mp rfl) (by decide)
    | some d => exact ⟨d, s', h, (hmap d rfl).mem 0 (by decide)⟩
  · obtain ⟨r, s', h, hnone, -, hperm⟩ := setupkvm_exact (hfree 10 (by decide))
    obtain rfl : r = none := hnone.mpr (by decide)
    exact ⟨s', h, hperm rfl⟩

end Xv6.Vm
