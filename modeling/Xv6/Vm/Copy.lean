import Xv6.Vm.Alloc
import Xv6.Vm.Cow

/-!
# The cost of `copyuvm`

`copyuvm` takes pages for the tables of the new directory and for nothing else: how many follows from
the size alone. It adds one reference to each page that it maps, and when it fails every count is as
it was.
-/

open Xv6.Cmd Xv6.Pool Function List

namespace Xv6.Vm

variable {ld : Linker} {dom : Nat → Prop} {s s' s'' : Phys} {own sh : Nat → Nat} {d d' pgdir pgdir' : PgDir}
  {t t' ps : List Nat}

/-! ## What the loop takes -/

/-- The pages `t` have been taken, and each page of `ps` has got a reference. -/
structure Lent (t ps : List Nat) (s s' : Phys) : Prop where
  free : s.freelist = t ++ s'.freelist
  count : ∀ q, q ∉ t → s'.refc_cnt q = s.refc_cnt q + ps.count q
  mem : ∀ q, q ∉ t → s'.mem q = s.mem q

theorem Took.lent (h : Took t s s') : Lent t [] s s' where
  free := h.free
  count q hq := by simp [h.count, hq]
  mem q hq := by simp [h.mem, hq]

theorem Lent.trans {ps' : List Nat} (h : Lent t ps s s') (h' : Lent t' ps' s' s'') :
    Lent (t ++ t') (ps ++ ps') s s'' where
  free := by rw [h.free, h'.free, append_assoc]
  count q hq := by
    rw [mem_append, not_or] at hq
    rw [h'.count q hq.2, h.count q hq.1, count_append]
    push_cast
    omega
  mem q hq := by
    rw [mem_append, not_or] at hq
    rw [h'.mem q hq.2, h.mem q hq.1]

theorem lent_incr (s : Phys) (q : Nat) : Lent [] [q] s (s.setRefc q (s.refc_cnt q + 1)) where
  free := rfl
  count p _ := by
    by_cases hp : p = q
    · subst hp
      simp [Phys.setRefc]
    · simp [Phys.setRefc, update_of_ne hp, count_singleton, Ne.symm hp]
  mem _ _ := rfl

/-- The pages that `copyuvm` shares from `i` on. -/
def lentPages (pgdir : PgDir) (i sz : Nat) : List Nat :=
  (List.range ((sz - i + PGSIZE - 1) / PGSIZE)).map fun k => (pgdir.get (i + k * PGSIZE)).ppn

theorem lentPages_nil {i sz : Nat} (h : sz ≤ i) : lentPages pgdir i sz = [] := by
  have : (sz - i + PGSIZE - 1) / PGSIZE = 0 := by simp only [PGSIZE]; omega
  rw [lentPages, this]
  rfl

theorem lentPages_cons {i sz : Nat} (h : i < sz) (hsz : sz ≤ KERNBASE) (hal : i % PGSIZE = 0)
    (htab : pgdir.HasTab i) (e : Pte) :
    lentPages pgdir i sz = (pgdir.get i).ppn :: lentPages (pgdir.set i e) (i + PGSIZE) sz := by
  have hn : (sz - i + PGSIZE - 1) / PGSIZE = (sz - (i + PGSIZE) + PGSIZE - 1) / PGSIZE + 1 := by
    simp only [PGSIZE]
    omega
  rw [lentPages, hn, range_succ_eq_map, map_cons, map_map, Nat.zero_mul, Nat.add_zero, lentPages]
  refine congrArg _ (map_congr_left fun k hk => ?_)
  have hk' := mem_range.mp hk
  have heq : i + Nat.succ k * PGSIZE = i + PGSIZE + k * PGSIZE := by
    rw [Nat.succ_mul]
    omega
  rw [comp_apply, heq, PgDir.get_set htab (by simp only [KERNBASE] at hsz; omega)
    (by simp only [PGSIZE, KERNBASE] at *; omega), if_neg]
  simp only [PGSIZE] at *
  omega

theorem copyLoop_lent {sz n i : Nat} {ok : Bool} (hsz : sz ≤ KERNBASE) (hal : i % PGSIZE = 0)
    (h : copyLoop sz n pgdir d i s = .ok ((pgdir', d', ok), s')) :
    ∃ t ps, Lent t ps s s' ∧ NewTabs t d d' ∧ (ok = true → ps = lentPages pgdir i sz) := by
  induction n generalizing pgdir d i s with
  | zero =>
    obtain ⟨hle, rfl, rfl, rfl, rfl⟩ := copyLoop_zero h
    exact ⟨[], [], (Took.refl _).lent, .refl _, fun _ => (lentPages_nil hle).symm⟩
  | succ n ih =>
    rcases copyLoop_cases h with ⟨hle, rfl, rfl, rfl, rfl⟩ |
      ⟨hlt, hp, d1, w, s1, hm, ⟨rfl, h⟩ | ⟨rfl, rfl, rfl, rfl, rfl⟩⟩
    · exact ⟨[], [], (Took.refl _).lent, .refl _, fun _ => (lentPages_nil hle).symm⟩
    · have hi : i < KERNBASE := by omega
      rw [u32_of_lt (by simp only [PGSIZE, KERNBASE] at *; omega)] at h
      obtain ⟨t1, ht1, hn1, -⟩ := map_took hi hm
      obtain ⟨t2, ps, hl2, hn2, hps⟩ := ih (by simp only [PGSIZE] at *; omega) h
      refine ⟨_, _, (ht1.lent.trans (lent_incr s1 (pgdir.get i).ppn)).trans hl2, ?_, fun hok => ?_⟩
      · rw [append_nil]
        exact hn1.trans hn2
      · rw [hps hok, lentPages_cons hlt hsz hal (PgDir.hasTab_of_present hp) (pgdir.get i).readOnly]
        rfl
    · obtain ⟨t1, ht1, hn1, -⟩ := map_took (by omega) hm
      exact ⟨t1, [], ht1.lent, hn1, fun hc => by cases hc⟩

theorem copyLoop_tab {sz n i j : Nat} {ok : Bool} (hsz : sz ≤ KERNBASE) (hal : i % PGSIZE = 0)
    (hj : ∀ b < sz, pdx b ≠ j) (h : copyLoop sz n pgdir d i s = .ok ((pgdir', d', ok), s')) :
    d'.tab j = d.tab j := by
  induction n generalizing pgdir d i s with
  | zero =>
    obtain ⟨-, -, rfl, -, -⟩ := copyLoop_zero h
    rfl
  | succ n ih =>
    rcases copyLoop_cases h with ⟨-, -, rfl, -, -⟩ | ⟨hlt, hp, d1, w, s1, hm, hrest⟩
    · rfl
    · have hd1 : d1.tab j = d.tab j := by
        obtain ⟨d0, hw, hfail, hok⟩ := mappages_one hal (by omega) hm
        have h0 := walkpgdir_tab (hj i hlt) hw
        cases w with
        | false => rw [hfail rfl, h0]
        | true => rw [(hok rfl).2, PgDir.set_tab_of_ne (hj i hlt), h0]
      rcases hrest with ⟨-, h⟩ | ⟨-, -, rfl, -, -⟩
      · rw [u32_of_lt (by simp only [PGSIZE, KERNBASE] at *; omega)] at h
        rw [ih (by simp only [PGSIZE] at *; omega) h, hd1]
      · exact hd1

/-! ## How many pages -/

/-- The tables for user memory of size `sz`. -/
def userTabs (sz : Nat) : Nat := (sz + 0x3fffff) / 0x400000

theorem copyuvm_hasTab {sz : Nat} {s1 : Phys} (hsz : sz ≤ KERNBASE) (hs : setupkvm ld s = .ok (some d, s1))
    (hl : copyLoop sz (sz / PGSIZE + 1) pgdir d 0 s1 = .ok ((pgdir', d', true), s')) {j : Nat}
    (hj : j < NPDENTRIES) : (d'.tab j).isSome ↔ j ∈ kernelTabs ∨ j < userTabs sz := by
  by_cases hlow : j < userTabs sz
  · -- The first page of the table is below `sz`, and is mapped.
    obtain ⟨b, hb⟩ : ∃ b, b = j * 0x400000 := ⟨_, rfl⟩
    have hlt : b / PGSIZE * PGSIZE < sz := by
      simp only [userTabs, PGSIZE] at *
      omega
    have hpdx : pdx b = j := by
      simp only [pdx, NPDENTRIES] at *
      omega
    obtain ⟨hp, hget⟩ := (copyLoop_copied hsz (by decide) hl).child b (Nat.zero_le _) hlt
    have htab : d'.HasTab b := PgDir.hasTab_of_present (by rw [hget]; exact hp)
    rw [PgDir.HasTab, hpdx] at htab
    simp [htab, hlow]
  · have hout : ∀ b < sz, pdx b ≠ j := by
      intro b hb
      simp only [userTabs, pdx, KERNBASE] at *
      omega
    rw [copyLoop_tab hsz (by decide) hout hl, setupkvm_hasTab hs hj]
    simp [hlow]

theorem copyuvm_gaps {sz : Nat} {s1 : Phys} (hsz : sz ≤ KERNBASE) (hs : setupkvm ld s = .ok (some d, s1))
    (hl : copyLoop sz (sz / PGSIZE + 1) pgdir d 0 s1 = .ok ((pgdir', d', true), s')) :
    gaps d' + userTabs sz = gaps d := by
  have hle : userTabs sz ≤ 512 := by
    simp only [userTabs, KERNBASE] at *
    omega
  have hsplit : (Finset.range NPDENTRIES).filter (fun j => (d.tab j).isNone) =
      (Finset.range NPDENTRIES).filter (fun j => (d'.tab j).isNone) ∪ Finset.range (userTabs sz) := by
    ext j
    simp only [Finset.mem_union, Finset.mem_filter, Finset.mem_range, ← Option.not_isSome, Bool.not_eq_true',
      ← Bool.not_eq_true]
    by_cases hj : j < NPDENTRIES
    · rw [copyuvm_hasTab hsz hs hl hj, setupkvm_hasTab hs hj]
      have hdis : j < userTabs sz → j ∉ kernelTabs := by
        intro hu hk
        rw [kernelTabs, Finset.mem_union, Finset.mem_Ico, Finset.mem_Ico] at hk
        omega
      by_cases hu : j < userTabs sz
      · simp [hj, hu, hdis hu]
      · simp [hj, hu]
    · simp only [hj, false_and, false_or, false_iff]
      simp only [NPDENTRIES] at hj
      omega
  have hdisj : Disjoint ((Finset.range NPDENTRIES).filter fun j => (d'.tab j).isNone)
      (Finset.range (userTabs sz)) := by
    rw [Finset.disjoint_left]
    intro j hj hu
    rw [Finset.mem_filter, Finset.mem_range] at hj
    have := (copyuvm_hasTab hsz hs hl hj.1).mpr (.inr (Finset.mem_range.mp hu))
    rw [Option.isSome_iff_ne_none] at this
    exact this (Option.isNone_iff_eq_none.mp hj.2)
  rw [gaps, gaps, missing, missing, hsplit, Finset.card_union_of_disjoint hdisj, Finset.card_range]

theorem copyuvm_lent {sz : Nat} (hsz : sz ≤ KERNBASE)
    (h : copyuvm ld pgdir sz s = .ok ((pgdir', some d'), s')) :
    ∃ t, Lent t (lentPages pgdir 0 sz) s s' ∧ t.length = 65 + userTabs sz := by
  rcases copyuvm_cases h with ⟨-, -, hc⟩ | ⟨d, s1, d1, ok, s2, hk, hl, ⟨rfl, hr, rfl⟩ | ⟨-, hc, -⟩⟩
  · cases hc
  · obtain rfl := Option.some.inj hr
    obtain ⟨t1, ht1, hlen1⟩ := setupkvm_took hk
    obtain ⟨t2, ps, hl2, hn2, hps⟩ := copyLoop_lent hsz (by decide) hl
    rw [hps rfl] at hl2
    refine ⟨d.page :: t1 ++ t2, ht1.lent.trans hl2, ?_⟩
    have hcount := hn2.count
    have hgaps := copyuvm_gaps hsz hk hl
    rw [length_append, length_cons, hlen1]
    omega
  · cases hc

/-! ## When it fails -/

/-- Only the counts of the pages `dom` have changed. -/
def CountsKept (dom : Nat → Prop) (s s' : Phys) : Prop := ∀ q, ¬ dom q → s'.refc_cnt q = s.refc_cnt q

theorem CountsKept.trans (h : CountsKept dom s s') (h' : CountsKept dom s' s'') : CountsKept dom s s'' :=
  fun q hq => (h' q hq).trans (h q hq)

theorem Took.countsKept (h : Took t s s') (hd : ∀ q ∈ s.freelist, dom q) : CountsKept dom s s' := by
  intro q hq
  rw [h.count, if_neg]
  intro ht
  exact hq (hd q (by rw [h.free]; exact mem_append_left _ ht))

theorem Acct.free_dom (h : Acct dom s own sh) : ∀ q ∈ s.freelist, dom q := fun q hq => ((h.mem q).mp hq).1

theorem kfree_counts {p : Nat} {u : Unit} (hp : dom p) (h : kfree ld p s = .ok (u, s')) : CountsKept dom s s' := by
  intro q hq
  have hne : q ≠ p := by
    rintro rfl
    exact hq hp
  rw [kfree_of_managed (managed_of_kfree h)] at h
  obtain ⟨-, rfl⟩ := Prod.mk.inj (Except.ok.inj h)
  split <;> split <;> simp [Phys.push, Phys.setMem, Phys.setRefc, update_of_ne hne]

theorem deallocLoop_counts {oldsz n a : Nat} (hold : oldsz ≤ KERNBASE)
    (ha : Acct dom s own (d.userRefs + sh)) (h : deallocLoop ld oldsz n d a s = .ok (d', s')) :
    CountsKept dom s s' := by
  induction n generalizing d a s with
  | zero =>
    obtain ⟨-, rfl, rfl⟩ := deallocLoop_zero h
    exact fun _ _ => rfl
  | succ n ih =>
    rcases deallocLoop_cases h with ⟨-, rfl, rfl⟩ | ⟨-, -, h⟩ | ⟨hlt, hp, s1, hk, h⟩ | ⟨-, -, h⟩
    · exact fun _ _ => rfl
    · exact ih ha h
    · have hak : a < KERNBASE := by omega
      have hclear := userRefs_clear hp hak
      have ha1 : Acct dom s own ((d.set a .zero).userRefs + sh + one (d.get a).ppn) :=
        ha.congr (fun _ => rfl) fun q => by
          have := hclear q
          simp only [Pi.add_apply]
          omega
      exact (kfree_counts (ha1.inDom _ (by simp)) hk).trans (ih (acct_kfree_sh ha1 hk).1 h)
    · exact ih ha h

theorem deallocuvm_counts {oldsz newsz r : Nat} (hold : oldsz ≤ KERNBASE)
    (ha : Acct dom s own (d.userRefs + sh)) (h : deallocuvm ld d oldsz newsz s = .ok ((d', r), s')) :
    CountsKept dom s s' := by
  unfold deallocuvm at h
  split at h
  · obtain ⟨-, -, rfl⟩ := pure_pair_ok h
    exact fun _ _ => rfl
  · obtain ⟨d1, s1, hl, h⟩ := bind_ok h
    obtain ⟨-, -, rfl⟩ := pure_pair_ok h
    exact deallocLoop_counts hold ha hl

theorem freeTabs_counts {is : List Nat} {u : Unit} (ha : Acct dom s (tabRefs d is + own) sh)
    (h : freeTabs ld d is s = .ok (u, s')) : CountsKept dom s s' := by
  induction is generalizing s with
  | nil =>
    obtain ⟨-, rfl⟩ := Prod.mk.inj (pure_ok h)
    exact fun _ _ => rfl
  | cons i is ih =>
    unfold freeTabs at h
    cases ht : d.tab i with
    | none =>
      rw [ht] at h
      exact ih (ha.congr (fun q => by simp [tabRefs, tabRef, ht]) fun _ => rfl) h
    | some t =>
      rw [ht] at h
      obtain ⟨_, s1, hk, h⟩ := bind_ok h
      have ha1 : Acct dom s (tabRefs d is + own + one t.page) sh :=
        ha.congr (fun q => by simp [tabRefs, tabRef, ht]; omega) fun _ => rfl
      exact (kfree_counts (ha1.inDom _ (by simp)) hk).trans (ih (acct_kfree_own ha1 hk).1 h)

theorem freevm_counts {u : Unit} (ha : Acct dom s (d.kernRefs + own) (d.userRefs + sh))
    (h : freevm ld d s = .ok (u, s')) : CountsKept dom s s' := by
  obtain ⟨⟨d1, r⟩, s1, hd, h⟩ := bind_ok h
  obtain ⟨_, s2, ht, h⟩ := bind_ok h
  have ha2 := acct_dealloc_all ha hd
  have h1 : CountsKept dom s s1 := deallocuvm_counts (Nat.le_refl _) ha hd
  have ha3 := (acct_freeTabs ha2 ht).1
  exact (h1.trans (freeTabs_counts ha2 ht)).trans (kfree_counts (ha3.inDom _ (by simp)) h)

theorem setupkvm_counts {r : Option PgDir} (ha : Acct dom s own sh) (h : setupkvm ld s = .ok (r, s')) :
    CountsKept dom s s' := by
  rcases setupkvm_cases h with ⟨-, hk⟩ | ⟨p, s1, d, ok, s2, hk, hl, hend⟩
  · exact (took_kalloc_none hk).1.countsKept ha.free_dom
  · obtain ⟨ha1, -⟩ := acct_newdir ha hk
    obtain ⟨t, ht, -⟩ := kmapLoop_took (kmap_fits ld) hl
    have h2 := ((took_kalloc hk).trans ht).countsKept ha.free_dom
    rcases hend with ⟨-, -, rfl⟩ | ⟨-, -, hf⟩
    · exact h2
    · have ha2 := (acct_kmapLoop (kmap_fits ld) ha1 hl).1
      exact h2.trans (freevm_counts (ha2.add_userRefs (kmapLoop_absent (kmap_fits ld) hl)) hf)

theorem allocLoop_countsKept {oldsz newsz n a r : Nat} (hnew : newsz ≤ KERNBASE) (hal : a % PGSIZE = 0)
    (ha : Acct dom s (d.kernRefs + own) (d.userRefs + sh))
    (h : allocLoop ld oldsz newsz n d a s = .ok ((d', r), s')) : CountsKept dom s s' := by
  induction n generalizing d a s with
  | zero =>
    obtain ⟨-, -, -, rfl⟩ := allocLoop_zero h
    exact fun _ _ => rfl
  | succ n ih =>
    rcases allocLoop_cases h with ⟨-, -, -, rfl⟩ | ⟨-, s1, r', hk, hd, -⟩ |
      ⟨hlt, q, s1, d1, s2, hk, hm, h⟩ | ⟨hlt, q, s1, d1, s2, r', s3, hk, hm, hd, hf, -⟩
    · exact fun _ _ => rfl
    · exact ((took_kalloc_none hk).1.countsKept ha.free_dom).trans
        (deallocuvm_counts hnew (acct_kalloc_none ha hk) hd)
    · have hak : a < KERNBASE := by omega
      obtain ⟨t, ht, -⟩ := map_took hak hm
      rw [u32_of_lt (by simp only [PGSIZE, KERNBASE] at *; omega)] at h
      exact (((took_kalloc hk).trans ht).countsKept ha.free_dom).trans
        (ih (by simp only [PGSIZE] at *; omega) (acct_page hal hak ha hk hm).1 h)
    · have hak : a < KERNBASE := by omega
      obtain ⟨t, ht, -⟩ := map_took hak hm
      exact ((((took_kalloc hk).trans ht).countsKept ha.free_dom).trans
        (deallocuvm_counts hnew (acct_page_fail hal hak ha hk hm).1 hd)).trans
        (kfree_counts (acct_kalloc ha hk).2.2.1 hf)

theorem allocuvm_countsKept {oldsz newsz r : Nat} (ha : Acct dom s (d.kernRefs + own) (d.userRefs + sh))
    (h : allocuvm ld d oldsz newsz s = .ok ((d', r), s')) : CountsKept dom s s' := by
  unfold allocuvm at h
  split at h
  · obtain ⟨-, -, rfl⟩ := pure_pair_ok h
    exact fun _ _ => rfl
  · split at h
    · obtain ⟨-, -, rfl⟩ := pure_pair_ok h
      exact fun _ _ => rfl
    · exact allocLoop_countsKept (by omega) (pgroundup_mod _) ha h

theorem copyLoop_counts {sz n i : Nat} {ok : Bool} (hsz : sz ≤ KERNBASE) (hal : i % PGSIZE = 0)
    (ha : Acct dom s (d.kernRefs + own) (d.userRefs + (pgdir.userRefs + sh)))
    (h : copyLoop sz n pgdir d i s = .ok ((pgdir', d', ok), s')) : CountsKept dom s s' := by
  induction n generalizing pgdir d i s with
  | zero =>
    obtain ⟨-, -, -, -, rfl⟩ := copyLoop_zero h
    exact fun _ _ => rfl
  | succ n ih =>
    rcases copyLoop_cases h with ⟨-, -, -, -, rfl⟩ |
      ⟨hlt, hp, d1, w, s1, hm, ⟨rfl, h⟩ | ⟨rfl, -, -, -, rfl⟩⟩
    · exact fun _ _ => rfl
    · have hi : i < KERNBASE := by omega
      rw [u32_of_lt (by simp only [PGSIZE, KERNBASE] at *; omega)] at h
      obtain ⟨t1, ht1, -, -⟩ := map_took hi hm
      have hshare := acct_share hal hi hp ha hm
      have hdom : dom (pgdir.get i).ppn := ha.inDom _ (by
        have := PgDir.userRefs_pos hp hi
        simp only [Pi.add_apply]
        omega)
      have hincr : CountsKept dom s1 (s1.setRefc (pgdir.get i).ppn (s1.refc_cnt (pgdir.get i).ppn + 1)) :=
        fun q hq => update_of_ne (by rintro rfl; exact hq hdom) _ _
      refine ((ht1.countsKept ha.free_dom).trans hincr).trans (ih (by simp only [PGSIZE] at *; omega) ?_ h)
      exact hshare.congr (fun _ => rfl) fun p => by simp only [Pi.add_apply, (demoted_set hp hi).user]
    · obtain ⟨t1, ht1, -, -⟩ := map_took (by omega) hm
      exact ht1.countsKept ha.free_dom

theorem copyuvm_counts {sz : Nat} {r : Option PgDir} (hsz : sz ≤ KERNBASE)
    (ha : Acct dom s own (pgdir.userRefs + sh)) (h : copyuvm ld pgdir sz s = .ok ((pgdir', r), s')) :
    CountsKept dom s s' := by
  rcases copyuvm_cases h with ⟨hk, -, -⟩ | ⟨d, s1, d1, ok, s2, hk, hl, hend⟩
  · exact setupkvm_counts ha hk
  · obtain ⟨ha1, -⟩ := acct_setupkvm ha hk
    have h2 := (setupkvm_counts ha hk).trans (copyLoop_counts hsz (by decide) ha1 hl)
    rcases hend with ⟨-, -, rfl⟩ | ⟨-, -, hf⟩
    · exact h2
    · exact h2.trans (freevm_counts (acct_copyLoop hsz (by decide) ha1 hl).1 hf)

/-! ## It returns -/

theorem copyLoop_runs {sz n i : Nat} (hsz : sz ≤ KERNBASE) (hal : i % PGSIZE = 0) (hn : sz ≤ i + n * PGSIZE)
    (hpres : ∀ b, i ≤ b → b < sz → (pgdir.get b).present = true)
    (habs : ∀ b, i ≤ b → b < sz → (d.get b).present = false) (s : Phys) :
    ∃ pgdir' d' ok s', copyLoop sz n pgdir d i s = .ok ((pgdir', d', ok), s') := by
  induction n generalizing pgdir d i s with
  | zero =>
    refine ⟨pgdir, d, true, s, ?_⟩
    rw [copyLoop, if_neg (by omega)]
    rfl
  | succ n ih =>
    by_cases hlt : i < sz
    · have hi : i < KERNBASE := by omega
      have hp := hpres i (Nat.le_refl _) hlt
      have htab := PgDir.hasTab_of_present hp
      obtain ⟨pte, hpte⟩ : ∃ pte, pte = (pgdir.get i).readOnly := ⟨_, rfl⟩
      have hget : (pgdir.set i { pgdir.get i with writable := false }).get i = pte := by
        rw [PgDir.get_set_self htab, hpte]
        rfl
      obtain ⟨d1, ok, s1, hm⟩ := map_runs pte.ppn ⟨pte.writable, pte.user⟩ hal hi
        (habs i (Nat.le_refl _) hlt) s
      have hno := has_page hp
      rw [copyLoop, if_pos hlt, if_neg fun hc => hno (.inl hc), if_neg (by simp [hp])]
      dsimp only
      rw [hget, bind_of_ok hm]
      cases ok with
      | false => exact ⟨_, d1, false, s1, rfl⟩
      | true =>
        have hmap := ((map_user_shape hal hi hm).2.2 rfl).2.2
        have hb32 : ∀ b, b < sz → b < 0x100000000 := fun b hb => by
          simp only [KERNBASE] at hsz
          omega
        have hnext : ∀ b, i + PGSIZE ≤ b → b / PGSIZE ≠ i / PGSIZE := fun b hb => by
          simp only [PGSIZE] at *
          omega
        dsimp only
        rw [if_pos rfl, u32_of_lt (by simp only [PGSIZE, KERNBASE] at *; omega)]
        exact ih (by simp only [PGSIZE] at *; omega) (by simp only [PGSIZE] at *; omega)
          (fun b h1 h2 => by
            rw [PgDir.get_set htab (hb32 i hlt) (hb32 b h2), if_neg (hnext b h1)]
            exact hpres b (by omega) h2)
          (fun b h1 h2 => by
            rw [hmap b (hb32 b h2), if_neg (hnext b h1)]
            exact habs b (by omega) h2) _
    · refine ⟨pgdir, d, true, s, ?_⟩
      rw [copyLoop, if_neg hlt]
      rfl

theorem copyuvm_runs {sz : Nat} (hsz : sz ≤ KERNBASE) (hdom : ∀ p, dom p → Managed ld p)
    (hpres : ∀ b < sz, (pgdir.get b).present = true) (ha : Acct dom s own (pgdir.userRefs + sh)) :
    ∃ pgdir' r s', copyuvm ld pgdir sz s = .ok ((pgdir', r), s') := by
  obtain ⟨r, s1, hs⟩ := setupkvm_runs hdom ha
  unfold copyuvm
  rw [bind_of_ok hs]
  cases r with
  | none => exact ⟨pgdir, none, s1, rfl⟩
  | some d =>
    obtain ⟨ha1, -⟩ := acct_setupkvm ha hs
    obtain ⟨pgdir', d', ok, s2, hl⟩ := copyLoop_runs (d := d) (i := 0)
      (n := sz / PGSIZE + 1) hsz (by decide) (by simp only [PGSIZE]; omega) (fun b _ => hpres b)
      (fun b _ hb => by
        have hbk : b < KERNBASE := by omega
        rw [setupkvm_shape hs b (by simp only [KERNBASE] at hbk; omega), kernelPte_user hbk]
        rfl) s1
    dsimp only
    rw [bind_of_ok hl]
    cases ok with
    | true => exact ⟨pgdir', some d', s2, rfl⟩
    | false =>
      obtain ⟨s3, hf⟩ := freevm_total hdom (acct_copyLoop hsz (by decide) ha1 hl).1
      exact ⟨pgdir', none, s3, bind_of_ok hf⟩

end Xv6.Vm
