import Xv6.Vm.Take
import Xv6.Vm.User

/-!
# `allocuvm` is all or nothing

For every page table and every free list, `allocuvm` maps all the pages that it was asked for, or
it leaves the user's mappings as they were and gives the data pages back. The tables that it added
on the way stay.
-/

open Xv6.Cmd Xv6.Pool Function List

namespace Xv6.Vm

variable {ld : Linker} {s s' s0 : Phys} {d d' d0 : PgDir} {a0 : Nat} {data tabs : List Nat}

/-! ## Freeing a stretch of pages -/

/-- From `a` on the pages `data` are mapped one after the other, and then nothing up to `top`. -/
structure Stretch (d : PgDir) (a top : Nat) (data : List Nat) : Prop where
  page : ∀ k (hk : k < data.length), d.get (a + k * PGSIZE) = userPerm.pte data[k]
  lt : ∀ k < data.length, a + k * PGSIZE < top
  rest : ∀ b, a + data.length * PGSIZE ≤ b → b / PGSIZE * PGSIZE < top → (d.get b).present = false

theorem Stretch.nil_of_le {a top : Nat} (h : Stretch d a top data) (hle : top ≤ a) : data = [] := by
  cases data with
  | nil => rfl
  | cons q rest =>
    have := h.lt 0 (Nat.succ_pos _)
    omega

theorem Stretch.empty_mono {a a' top : Nat} (h : Stretch d a top []) (hle : a ≤ a') : Stretch d a' top [] where
  page k hk := by cases hk
  lt k hk := by cases hk
  rest b hb := h.rest b (by simp only [length_nil] at *; omega)

theorem Stretch.head {a top q : Nat} (h : Stretch d a top (q :: data)) : d.get a = userPerm.pte q := by
  have := h.page 0 (Nat.succ_pos _)
  rwa [Nat.zero_mul, Nat.add_zero] at this

theorem Stretch.tail {a top q : Nat} (h : Stretch d a top (q :: data)) (hal : a % PGSIZE = 0)
    (htop : top ≤ KERNBASE) : Stretch (d.set a .zero) (a + PGSIZE) top data := by
  have ha := h.lt 0 (Nat.succ_pos _)
  have htab : d.HasTab a := PgDir.hasTab_of_present (by rw [h.head]; rfl)
  have hget : ∀ b < 0x100000000, a + PGSIZE ≤ b → (d.set a .zero).get b = d.get b := fun b hb hle => by
    rw [PgDir.get_set htab (by simp only [KERNBASE] at *; omega) hb, if_neg]
    simp only [PGSIZE] at *
    omega
  refine ⟨fun k hk => ?_, fun k hk => ?_, fun b hb hlt => ?_⟩
  · have hlt := h.lt (k + 1) (Nat.succ_lt_succ hk)
    have hpage := h.page (k + 1) (Nat.succ_lt_succ hk)
    have heq : a + PGSIZE + k * PGSIZE = a + (k + 1) * PGSIZE := by simp only [PGSIZE]; omega
    have hb : a + (k + 1) * PGSIZE < 0x100000000 :=
      Nat.lt_of_lt_of_le hlt (Nat.le_trans htop (by decide))
    rw [heq, hget _ hb (heq ▸ Nat.le_add_right _ _), hpage, getElem_cons_succ]
  · have := h.lt (k + 1) (Nat.succ_lt_succ hk)
    simp only [PGSIZE] at *
    omega
  · rw [hget b (by simp only [PGSIZE, KERNBASE] at *; omega) (by omega)]
    refine h.rest b ?_ hlt
    simp only [length_cons, PGSIZE] at *
    omega

theorem deallocLoop_gives {top n a : Nat} (htop : top ≤ KERNBASE) (hal : a % PGSIZE = 0)
    (hn : top ≤ a + n * PGSIZE) (h : Stretch d a top data) (hnd : data.Nodup)
    (hm : ∀ q ∈ data, Managed ld q ∧ s.refc_cnt q = 1) :
    ∃ d' s', deallocLoop ld top n d a s = .ok (d', s') ∧ NewTabs [] d d' ∧
      s'.freelist = data.reverse ++ s.freelist ∧
      (∀ p, s'.refc_cnt p = if p ∈ data then 0 else s.refc_cnt p) ∧ ∀ p, p ∉ data → s'.mem p = s.mem p := by
  induction n generalizing d a s data with
  | zero =>
    obtain rfl := h.nil_of_le (by omega)
    refine ⟨d, s, ?_, .refl _, rfl, fun p => by simp, fun _ _ => rfl⟩
    rw [deallocLoop, if_neg (by omega)]
    rfl
  | succ n ih =>
    by_cases hlt : a < top
    · have hnext : u32 (a + PGSIZE) = a + PGSIZE :=
        u32_of_lt (by simp only [PGSIZE, KERNBASE] at *; omega)
      have hal' : (a + PGSIZE) % PGSIZE = 0 := by simp only [PGSIZE] at *; omega
      have hn' : top ≤ a + PGSIZE + n * PGSIZE := by simp only [PGSIZE] at *; omega
      cases data with
      | nil =>
        have habs : (d.get a).present = false :=
          h.rest a (by simp) (by simp only [PGSIZE] at *; omega)
        by_cases ht : (d.tab (pdx a)).isNone
        · have hskip : pgaddr (pdx a + 1) = (a / 0x400000 + 1) * 0x400000 := by
            simp only [pgaddr, pdx, u32, KERNBASE] at *; omega
          obtain ⟨d', s', hr, hrest⟩ := ih (s := s) (a := (a / 0x400000 + 1) * 0x400000)
            (by simp only [PGSIZE] at *; omega) (by simp only [PGSIZE] at *; omega)
            (h.empty_mono (by omega)) hnd (by simp)
          refine ⟨d', s', ?_, hrest⟩
          rw [deallocLoop, if_pos hlt, if_pos ht, hskip]
          exact hr
        · obtain ⟨d', s', hr, hrest⟩ := ih (s := s) hal' hn' (h.empty_mono (by omega)) hnd (by simp)
          refine ⟨d', s', ?_, hrest⟩
          rw [deallocLoop, if_pos hlt, if_neg ht, if_neg (by simp [habs]), hnext]
          exact hr
      | cons q data =>
        obtain ⟨hmq, hcq⟩ := hm q (by simp)
        obtain ⟨hq, hnd'⟩ := nodup_cons.mp hnd
        have hget := h.head
        have htab : ¬ (d.tab (pdx a)).isNone := by
          have := PgDir.hasTab_of_present (d := d) (show (d.get a).present = true by rw [hget]; rfl)
          simpa [PgDir.HasTab, Option.isSome_iff_ne_none] using this
        have hcount : ∀ p, ((s.setRefc q 0).push q).refc_cnt p = if p = q then 0 else s.refc_cnt p := by
          intro p
          simp [Phys.push, Phys.setMem, Phys.setRefc, update_apply]
        obtain ⟨d', s', hr, hnew, hfree, hcnt, hmem⟩ := ih (s := (s.setRefc q 0).push q) hal' hn'
          (h.tail hal htop) hnd' (fun p hp => by
            obtain ⟨h1, h2⟩ := hm p (by simp [hp])
            refine ⟨h1, ?_⟩
            rw [hcount, if_neg (by rintro rfl; exact hq hp), h2])
        refine ⟨d', s', ?_, (newTabs_set d a .zero).trans hnew, ?_, fun p => ?_, fun p hp => ?_⟩
        · rw [deallocLoop, if_pos hlt, if_neg htab, hget, if_pos (show (userPerm.pte q).present = true from rfl),
            if_neg (show (userPerm.pte q).ppn ≠ 0 from hmq.ne_zero), hnext]
          exact (bind_of_ok (kfree_last hmq hcq)).trans hr
        · rw [hfree, reverse_cons, append_assoc]
          rfl
        · rw [hcnt, hcount]
          by_cases h1 : p = q <;> by_cases h2 : p ∈ data <;> simp [h1, h2]
        · rw [mem_cons, not_or] at hp
          rw [hmem p hp.2]
          exact update_of_ne hp.1 _ _
    · obtain rfl := h.nil_of_le (by omega)
      refine ⟨d, s, ?_, .refl _, rfl, fun p => by simp, fun _ _ => rfl⟩
      rw [deallocLoop, if_neg hlt]
      rfl

/-! ## Mapping one page -/

theorem map_runs {a : Nat} (q : Nat) (perm : Perm) (ha : a % PGSIZE = 0) (hlt : a < KERNBASE)
    (hnew : (d.get a).present = false) (s : Phys) :
    ∃ d1 ok s1, mappages d a PGSIZE (q * PGSIZE) perm s = .ok ((d1, ok), s1) := by
  have heq : mappages d a PGSIZE (q * PGSIZE) perm = mapLoop perm 0 d a (q * PGSIZE) :=
    mappages_eq ha (by decide) (by decide) (by simp only [KERNBASE, PGSIZE] at *; omega)
  rw [heq]
  refine mapLoop_runs perm _ ha (by simp only [KERNBASE] at *; omega) (fun b h1 h2 => ?_) s
  have hpage : b / PGSIZE * PGSIZE = a := by simp only [PGSIZE] at *; omega
  rw [← PgDir.get_page, hpage]
  exact hnew

theorem map_took {perm : Perm} {a q : Nat} {ok : Bool} (hlt : a < KERNBASE)
    (h : mappages d a PGSIZE (q * PGSIZE) perm s = .ok ((d', ok), s')) :
    ∃ t, Took t s s' ∧ NewTabs t d d' ∧ (ok = false → s'.freelist = []) := by
  rw [mappages_eq_mapLoop (Nat.lt_trans hlt (by decide))] at h
  exact mapLoop_took h

/-! ## What a successful `allocuvm` takes -/

theorem allocLoop_took {oldsz newsz n a r : Nat} (hnew : newsz ≤ KERNBASE) (hr : r ≠ 0)
    (h : allocLoop ld oldsz newsz n d a s = .ok ((d', r), s')) :
    ∃ t tabs c, Took t s s' ∧ NewTabs tabs d d' ∧ t.length = c + tabs.length ∧ newsz ≤ a + c * PGSIZE ∧
      (0 < c → a + c * PGSIZE < newsz + PGSIZE) := by
  induction n generalizing d a s with
  | zero =>
    obtain ⟨hle, rfl, -, rfl⟩ := allocLoop_zero h
    exact ⟨[], [], 0, .refl _, .refl _, rfl, by omega, by omega⟩
  | succ n ih =>
    rcases allocLoop_cases h with ⟨hle, rfl, -, rfl⟩ | ⟨-, -, -, -, -, hz⟩ |
      ⟨hlt, q, s1, d1, s2, hk, hm, h⟩ | ⟨-, -, -, -, -, -, -, -, -, -, -, hz⟩
    · exact ⟨[], [], 0, .refl _, .refl _, rfl, by omega, by omega⟩
    · exact absurd hz hr
    · obtain ⟨t1, ht1, hn1, -⟩ := map_took (Nat.lt_of_lt_of_le hlt hnew) hm
      rw [u32_of_lt (by simp only [PGSIZE, KERNBASE] at *; omega)] at h
      obtain ⟨t2, tabs, c, ht2, hn2, hlen, hle, hlast⟩ := ih h
      refine ⟨[q] ++ t1 ++ t2, t1 ++ tabs, c + 1, ((took_kalloc hk).trans ht1).trans ht2, hn1.trans hn2, ?_,
        by simp only [PGSIZE] at *; omega, fun _ => ?_⟩
      · simp only [length_append, length_singleton]
        omega
      · simp only [PGSIZE] at *
        by_cases hc : 0 < c
        · have := hlast hc
          omega
        · obtain rfl : c = 0 := by omega
          omega
    · exact absurd hz hr

theorem gaps_le (d : PgDir) : gaps d ≤ NPDENTRIES := by
  unfold gaps missing
  exact (Finset.card_filter_le _ _).trans_eq (Finset.card_range NPDENTRIES)

theorem allocuvm_took {oldsz newsz r : Nat} (hle : oldsz ≤ newsz) (hr : r ≠ 0)
    (h : allocuvm ld d oldsz newsz s = .ok ((d', r), s')) :
    ∃ t c, Took t s s' ∧ c ≤ t.length ∧ t.length ≤ c + 1024 ∧ newsz ≤ pgroundup oldsz + c * PGSIZE ∧
      (0 < c → pgroundup oldsz + c * PGSIZE < newsz + PGSIZE) := by
  unfold allocuvm at h
  split at h
  · obtain ⟨-, hz, -⟩ := pure_pair_ok h
    exact absurd hz hr
  · next hk =>
    rw [if_neg (by omega)] at h
    obtain ⟨t, tabs, c, ht, hn, hlen, h1, h2⟩ := allocLoop_took (by omega) hr h
    have := hn.count
    have hgaps := gaps_le d
    simp only [NPDENTRIES] at hgaps
    exact ⟨t, c, ht, by omega, by omega, h1, h2⟩

/-! ## The loop of `allocuvm` -/

/-- `d` is `d0` with the pages `data` mapped from `a0` on and new tables in the pages `tabs`. -/
structure Filled (a0 : Nat) (d0 d : PgDir) (data tabs : List Nat) : Prop where
  newTabs : NewTabs tabs d0 d
  page : ∀ k (hk : k < data.length), d.get (a0 + k * PGSIZE) = userPerm.pte data[k]
  out : ∀ b < 0x100000000, b < a0 ∨ a0 + data.length * PGSIZE ≤ b → d.get b = d0.get b

/-- The loop after its first rounds: exactly these pages have been taken. -/
structure Filling (a0 : Nat) (d0 : PgDir) (s0 : Phys) (d : PgDir) (s : Phys) (data tabs : List Nat) : Prop
    extends Filled a0 d0 d data tabs where
  took : ∃ t, Took t s0 s ∧ t.Perm (data ++ tabs)

theorem Filling.start (a0 : Nat) (d0 : PgDir) (s0 : Phys) : Filling a0 d0 s0 d0 s0 [] [] :=
  ⟨⟨.refl _, by simp, fun _ _ _ => rfl⟩, [], .refl _, .refl _⟩

theorem Filling.add {q a : Nat} {s1 s2 : Phys} {d1 : PgDir} (h : Filling a0 d0 s0 d s data tabs)
    (ha : a = a0 + data.length * PGSIZE) (hal : a % PGSIZE = 0) (hlt : a < KERNBASE)
    (hk : kalloc s = .ok (some q, s1))
    (hm : mappages d a PGSIZE (q * PGSIZE) userPerm (s1.setMem q fun _ => 0) = .ok ((d1, true), s2)) :
    ∃ tabs', Filling a0 d0 s0 d1 s2 (data ++ [q]) tabs' := by
  obtain ⟨t, ht, hperm⟩ := h.took
  obtain ⟨t', ht', hn', -⟩ := map_took hlt hm
  obtain ⟨-, -, hget⟩ := (map_user_shape hal hlt hm).2.2 rfl
  refine ⟨tabs ++ t', ⟨h.newTabs.trans hn', fun k hk => ?_, fun b hb hout => ?_⟩, t ++ ([q] ++ t'),
    ht.trans ((took_kalloc hk).trans ht'), ?_⟩
  · rw [length_append, length_singleton] at hk
    have hle : a0 + k * PGSIZE ≤ a := by
      rw [ha]
      exact Nat.add_le_add_left (Nat.mul_le_mul_right _ (by omega)) _
    have hb : a0 + k * PGSIZE < 0x100000000 := Nat.lt_trans (Nat.lt_of_le_of_lt hle hlt) (by decide)
    rw [hget _ hb]
    by_cases hlast : k < data.length
    · rw [if_neg (by simp only [PGSIZE] at *; omega), h.page k hlast, getElem_append_left hlast]
    · obtain rfl : k = data.length := by omega
      rw [if_pos (by rw [ha]), getElem_concat_length rfl]
  · have hout' : b < a0 ∨ a + PGSIZE ≤ b := by
      rwa [length_append, length_singleton, Nat.add_one_mul, ← Nat.add_assoc, ← ha] at hout
    have hle : a0 ≤ a := by omega
    rw [hget b hb, if_neg (by simp only [PGSIZE] at hal hout' ⊢; omega)]
    exact h.out b hb (by rw [← ha]; omega)
  · refine (hperm.append_right _).trans (perm_iff_count.mpr fun x => ?_)
    simp only [count_append]
    omega

/-- What a failed `allocuvm` leaves. The user's mappings are as they were. A page that was taken is one
of a new table, or is on the free list again and has no reference. -/
structure Withdrawn (d0 : PgDir) (s0 : Phys) (d' : PgDir) (s' : Phys) : Prop where
  present : ∀ va < 0x100000000, (d'.get va).present = (d0.get va).present
  same : ∀ va < 0x100000000, (d0.get va).present = true → d'.get va = d0.get va
  back : ∃ tabs, NewTabs tabs d0 d' ∧ (tabs ++ s'.freelist).Perm s0.freelist
  count : ∀ p ∈ s'.freelist, s'.refc_cnt p = 0
  kept : ∀ p, p ∉ s0.freelist → s'.mem p = s0.mem p

theorem Filled.stretch {top : Nat} (h : Filled a0 d0 d data tabs) (htop : top ≤ KERNBASE)
    (hlt : ∀ k < data.length, a0 + k * PGSIZE < top)
    (habs : ∀ b < KERNBASE, a0 ≤ b → (d0.get b).present = false) : Stretch d a0 top data where
  page := h.page
  lt := hlt
  rest b hb hbt := by
    have hbk : b < KERNBASE := by simp only [PGSIZE, KERNBASE] at *; omega
    rw [h.out b (by simp only [KERNBASE] at *; omega) (.inr hb)]
    exact habs b hbk (by omega)

theorem Filled.undo {oldsz newsz : Nat} (h : Filled a0 d0 d data tabs) (ha0 : a0 = pgroundup oldsz)
    (hnew : newsz ≤ KERNBASE) (hlt : oldsz < newsz) (hpages : ∀ k < data.length, a0 + k * PGSIZE < newsz)
    (habs : ∀ b < KERNBASE, a0 ≤ b → (d0.get b).present = false) (hnd : data.Nodup)
    (hm : ∀ q ∈ data, Managed ld q ∧ s'.refc_cnt q = 1) :
    ∃ d' s'', deallocuvm ld d newsz oldsz s' = .ok ((d', oldsz), s'') ∧ NewTabs tabs d0 d' ∧
      s''.freelist = data.reverse ++ s'.freelist ∧
      (∀ p, s''.refc_cnt p = if p ∈ data then 0 else s'.refc_cnt p) ∧ (∀ p, p ∉ data → s''.mem p = s'.mem p) ∧
      (∀ va < 0x100000000, (d'.get va).present = (d0.get va).present) ∧
      ∀ va < 0x100000000, (d0.get va).present = true → d'.get va = d0.get va := by
  have hmod : a0 % PGSIZE = 0 := ha0 ▸ pgroundup_mod oldsz
  obtain ⟨d', s'', hr, hn, hfr, hcnt, hmem⟩ := deallocLoop_gives hnew hmod
    (n := (newsz - a0) / PGSIZE + 1) (by simp only [PGSIZE]; omega) (h.stretch hnew hpages habs) hnd hm
  obtain ⟨hgone, hout⟩ := deallocLoop_shape hnew hmod hr
  have hwin : ∀ va < 0x100000000, va < a0 ∨ newsz ≤ va / PGSIZE * PGSIZE → d'.get va = d0.get va := by
    intro va hva hc
    rw [hout va hva hc]
    refine h.out va hva ?_
    by_contra hin
    have := hpages ((va - a0) / PGSIZE) (by simp only [PGSIZE] at *; omega)
    simp only [PGSIZE] at *
    omega
  refine ⟨d', s'', ?_, by simpa using h.newTabs.trans hn, hfr, hcnt, hmem, fun va hva => ?_,
    fun va hva hp => ?_⟩
  · rw [deallocuvm, if_neg (by omega), ← ha0]
    exact bind_of_ok hr
  · by_cases hc : va < a0 ∨ newsz ≤ va / PGSIZE * PGSIZE
    · rw [hwin va hva hc]
    · rw [hgone va (by omega) (by omega), habs va (by simp only [PGSIZE, KERNBASE] at *; omega) (by omega)]
  · refine hwin va hva ?_
    by_contra hc
    rw [habs va (by simp only [PGSIZE, KERNBASE] at *; omega) (by omega)] at hp
    cases hp

theorem Filling.data_nodup (h : Filling a0 d0 s0 d s data tabs) (hfree : FreeOk ld s0) : data.Nodup := by
  obtain ⟨t, ht, hperm⟩ := h.took
  have htn : t.Nodup := (nodup_append.mp (ht.free ▸ hfree.nodup)).1
  exact (nodup_append.mp (hperm.nodup_iff.mp htn)).1

theorem Filling.data_free (h : Filling a0 d0 s0 d s data tabs) {q : Nat} (hq : q ∈ data) :
    q ∈ s0.freelist ∧ s.refc_cnt q = 1 ∧ s.mem q = fun _ => 0 := by
  obtain ⟨t, ht, hperm⟩ := h.took
  have hqt : q ∈ t := hperm.mem_iff.mpr (mem_append_left _ hq)
  refine ⟨?_, ?_, ?_⟩
  · rw [ht.free]
    exact mem_append_left _ hqt
  · rw [ht.count, if_pos hqt]
  · rw [ht.mem, if_pos hqt]

theorem Filling.fail_data {oldsz newsz : Nat} {s1 : Phys} (h : Filling a0 d0 s0 d s data tabs)
    (ha0 : a0 = pgroundup oldsz) (hnew : newsz ≤ KERNBASE) (hlt : oldsz < newsz)
    (hpages : ∀ k < data.length, a0 + k * PGSIZE < newsz)
    (habs : ∀ b < KERNBASE, a0 ≤ b → (d0.get b).present = false) (hfree : FreeOk ld s0)
    (hk : kalloc s = .ok (none, s1)) :
    ∃ d' s', deallocuvm ld d newsz oldsz s1 = .ok ((d', oldsz), s') ∧ Withdrawn d0 s0 d' s' := by
  obtain ⟨hk1, hnil⟩ := took_kalloc_none hk
  obtain ⟨t, ht, hperm⟩ := h.took
  obtain ⟨d', s', hr, hn, hfr, hcnt, hmem, hpres, hsame⟩ := h.undo ha0 hnew hlt hpages habs
    (h.data_nodup hfree) (fun q hq => by
      obtain ⟨h1, h2, -⟩ := h.data_free hq
      exact ⟨hfree.managed q h1, by rw [hk1.count, if_neg (by simp), h2]⟩)
  rw [hnil, append_nil] at hfr
  refine ⟨d', s', hr, hpres, hsame, ⟨tabs, hn, ?_⟩, fun p hp => ?_, fun p hp => ?_⟩
  · rw [hfr, (ht.trans hk1).free, hnil, append_nil, append_nil]
    exact (perm_append_comm.trans ((reverse_perm data).append_right _)).trans hperm.symm
  · rw [hfr, mem_reverse] at hp
    rw [hcnt, if_pos hp]
  · rw [hmem p fun hc => hp (h.data_free hc).1, (ht.trans hk1).kept hp]

theorem Filling.fail_table {oldsz newsz q a : Nat} {s1 s2 : Phys} {d1 : PgDir}
    (h : Filling a0 d0 s0 d s data tabs) (ha0 : a0 = pgroundup oldsz) (hnew : newsz ≤ KERNBASE)
    (hlt : oldsz < newsz) (hpages : ∀ k < data.length, a0 + k * PGSIZE < newsz) (hal : a % PGSIZE = 0)
    (halt : a < newsz) (habs : ∀ b < KERNBASE, a0 ≤ b → (d0.get b).present = false) (hfree : FreeOk ld s0)
    (hk : kalloc s = .ok (some q, s1))
    (hm : mappages d a PGSIZE (q * PGSIZE) userPerm (s1.setMem q fun _ => 0) = .ok ((d1, false), s2)) :
    ∃ d' s3 s', deallocuvm ld d1 newsz oldsz s2 = .ok ((d', oldsz), s3) ∧ kfree ld q s3 = .ok ((), s') ∧
      Withdrawn d0 s0 d' s' := by
  have hak : a < KERNBASE := by omega
  obtain ⟨t, ht, hperm⟩ := h.took
  obtain ⟨t', ht', hn', hnil⟩ := map_took hak hm
  have hall := ht.trans ((took_kalloc hk).trans ht')
  have hget := (map_user_shape hal hak hm).2.1 rfl
  have htn : (t ++ ([q] ++ t')).Nodup := (nodup_append.mp (hall.free ▸ hfree.nodup)).1
  have hin : ∀ p, p ∈ t ++ ([q] ++ t') → Managed ld p ∧ s2.refc_cnt p = 1 := fun p hp =>
    ⟨hfree.managed p (by rw [hall.free]; exact mem_append_left _ hp), by rw [hall.count, if_pos hp]⟩
  have hdata : ∀ p ∈ data, p ∈ t := fun p hp => hperm.mem_iff.mpr (mem_append_left _ hp)
  have hqd : q ∉ data := fun hq => (nodup_append.mp htn).2.2 q (hdata q hq) q (by simp) rfl
  have h1 : Filled a0 d0 d1 data (tabs ++ t') :=
    ⟨h.newTabs.trans hn', fun k hk => (hget _).trans (h.page k hk), fun b hb hout =>
      (hget b).trans (h.out b hb hout)⟩
  obtain ⟨d', s3, hr, hn, hfr, hcnt, hmem, hpres, hsame⟩ := h1.undo ha0 hnew hlt hpages habs
    (h.data_nodup hfree) fun p hp => hin p (mem_append_left _ (hdata p hp))
  obtain ⟨hmq, hcq⟩ := hin q (by simp)
  rw [hnil rfl, append_nil] at hfr
  refine ⟨d', s3, _, hr, kfree_last hmq (by rw [hcnt, if_neg hqd, hcq]), hpres, hsame, ⟨_, hn, ?_⟩,
    fun p hp => ?_, fun p hp => ?_⟩
  · rw [hall.free, hnil rfl, append_nil]
    change (tabs ++ t' ++ (q :: s3.freelist)).Perm _
    rw [hfr]
    refine List.Perm.trans ?_ (hperm.symm.append_right _)
    refine perm_iff_count.mpr fun x => ?_
    simp only [count_append, count_cons, count_reverse, count_nil]
    omega
  · change p ∈ q :: s3.freelist at hp
    change update s3.refc_cnt q 0 p = 0
    by_cases hpq : p = q
    · rw [hpq, update_self]
    · rw [update_of_ne hpq, hcnt, if_pos]
      rw [hfr, mem_cons, mem_reverse] at hp
      exact hp.resolve_left hpq
  · have hpq : p ≠ q := by
      rintro rfl
      exact hp (by rw [hall.free]; simp)
    refine (update_of_ne hpq _ _).trans ?_
    change s3.mem p = _
    rw [hmem p fun hc => hp (h.data_free hc).1, hall.kept hp]

/-- What a successful `allocuvm` has done: every page of the new memory is a page of its own, cleared,
and the entries of all other pages are as they were. -/
structure Granted (oldsz newsz : Nat) (d0 : PgDir) (s0 : Phys) (d' : PgDir) (s' : Phys) : Prop where
  new : ∀ b, pgroundup oldsz ≤ b → b / PGSIZE * PGSIZE < newsz →
    ∃ q, d'.get b = userPerm.pte q ∧ q ∈ s0.freelist ∧ s'.mem q = fun _ => 0
  distinct : ∀ b b', pgroundup oldsz ≤ b → b / PGSIZE * PGSIZE < newsz → pgroundup oldsz ≤ b' →
    b' / PGSIZE * PGSIZE < newsz → (d'.get b).ppn = (d'.get b').ppn → b / PGSIZE = b' / PGSIZE
  old : ∀ b < 0x100000000, b < pgroundup oldsz ∨ newsz ≤ b / PGSIZE * PGSIZE → d'.get b = d0.get b
  kept : ∀ p, p ∉ s0.freelist → s'.mem p = s0.mem p

theorem Filled.get {newsz b : Nat} (h : Filled a0 d0 d data tabs) (hal : a0 % PGSIZE = 0)
    (hend : newsz ≤ a0 + data.length * PGSIZE) (hb : a0 ≤ b) (hlt : b / PGSIZE * PGSIZE < newsz) :
    ∃ hk : (b - a0) / PGSIZE < data.length, d.get b = userPerm.pte (data.get ⟨(b - a0) / PGSIZE, hk⟩) := by
  have hk : (b - a0) / PGSIZE < data.length := by
    simp only [PGSIZE] at *
    omega
  have hpage : b / PGSIZE * PGSIZE = a0 + (b - a0) / PGSIZE * PGSIZE := by
    simp only [PGSIZE] at *
    omega
  refine ⟨hk, ?_⟩
  rw [← PgDir.get_page, hpage]
  exact h.page _ hk

theorem Filling.granted {oldsz newsz : Nat} (h : Filling (pgroundup oldsz) d0 s0 d s data tabs)
    (hfree : FreeOk ld s0) (hend : newsz ≤ pgroundup oldsz + data.length * PGSIZE)
    (hpages : ∀ k < data.length, pgroundup oldsz + k * PGSIZE < newsz) : Granted oldsz newsz d0 s0 d s where
  new b hb hlt := by
    obtain ⟨hk, hget⟩ := h.get (pgroundup_mod oldsz) hend hb hlt
    obtain ⟨h1, -, h2⟩ := h.data_free (get_mem data ⟨_, hk⟩)
    exact ⟨_, hget, h1, h2⟩
  distinct b b' hb hlt hb' hlt' heq := by
    obtain ⟨hk, hget⟩ := h.get (pgroundup_mod oldsz) hend hb hlt
    obtain ⟨hk', hget'⟩ := h.get (pgroundup_mod oldsz) hend hb' hlt'
    rw [hget, hget'] at heq
    have hidx := (h.data_nodup hfree).injective_get heq
    have := Fin.mk.inj hidx
    have hmod := pgroundup_mod oldsz
    simp only [PGSIZE] at *
    omega
  old b hb hout := by
    refine h.out b hb ?_
    by_contra hc
    have := hpages ((b - pgroundup oldsz) / PGSIZE) (by simp only [PGSIZE] at *; omega)
    have hmod := pgroundup_mod oldsz
    simp only [PGSIZE] at *
    omega
  kept p hp := by
    obtain ⟨t, ht, -⟩ := h.took
    exact ht.kept hp

theorem allocLoop_outcome {oldsz newsz n a : Nat} (hnew : newsz ≤ KERNBASE) (hold : oldsz ≤ pgroundup oldsz)
    (habs : ∀ b < KERNBASE, pgroundup oldsz ≤ b → (d0.get b).present = false) (hfree : FreeOk ld s0)
    (h : Filling (pgroundup oldsz) d0 s0 d s data tabs) (ha : a = pgroundup oldsz + data.length * PGSIZE)
    (hn : newsz ≤ a + n * PGSIZE) (hpages : ∀ k < data.length, pgroundup oldsz + k * PGSIZE < newsz) :
    ∃ d' r s', allocLoop ld oldsz newsz n d a s = .ok ((d', r), s') ∧
      (r = newsz ∧ Granted oldsz newsz d0 s0 d' s' ∨ r = 0 ∧ Withdrawn d0 s0 d' s') := by
  induction n generalizing d s a data tabs with
  | zero =>
    refine ⟨d, newsz, s, ?_, .inl ⟨rfl, h.granted hfree (by omega) hpages⟩⟩
    rw [allocLoop, if_neg (by omega)]
    rfl
  | succ n ih =>
    by_cases hlt : a < newsz
    · have hal : a % PGSIZE = 0 := by
        rw [ha, Nat.add_mul_mod_self_right]
        exact pgroundup_mod oldsz
      have hak : a < KERNBASE := by omega
      have hle : pgroundup oldsz ≤ a := by omega
      obtain ⟨r, s1, hk⟩ := kalloc_runs s
      rw [allocLoop, if_pos hlt, bind_of_ok hk]
      cases r with
      | none =>
        obtain ⟨d', s', hr, hw⟩ := h.fail_data rfl hnew (by omega) hpages habs hfree hk
        exact ⟨d', 0, s', bind_of_ok hr, .inr ⟨rfl, hw⟩⟩
      | some q =>
        dsimp only
        rw [bind_of_ok (show memset q 0 s1 = .ok ((), s1.setMem q fun _ => 0) from rfl)]
        have hnone : (d.get a).present = false := by
          rw [h.out a (by simp only [KERNBASE] at hak; omega) (.inr (Nat.le_of_eq ha.symm))]
          exact habs a hak hle
        obtain ⟨d1, ok, s2, hm⟩ := map_runs q userPerm hal hak hnone (s1.setMem q fun _ => 0)
        rw [bind_of_ok hm]
        cases ok with
        | false =>
          obtain ⟨d', s3, s', hr, hf, hw⟩ := h.fail_table rfl hnew (by omega) hpages hal hlt habs hfree hk hm
          exact ⟨d', 0, s', (bind_of_ok hr).trans (bind_of_ok hf), .inr ⟨rfl, hw⟩⟩
        | true =>
          obtain ⟨tabs', hf⟩ := h.add ha hal hak hk hm
          have hnext : u32 (a + PGSIZE) = a + PGSIZE :=
            u32_of_lt (by simp only [PGSIZE, KERNBASE] at *; omega)
          dsimp only
          rw [if_pos rfl, hnext]
          refine ih hf ?_ (by rw [Nat.add_one_mul] at hn; omega) fun k hk => ?_
          · rw [length_append, length_singleton, Nat.add_one_mul, ← Nat.add_assoc, ← ha]
          · rw [length_append, length_singleton] at hk
            by_cases hlast : k < data.length
            · exact hpages k hlast
            · obtain rfl : k = data.length := by omega
              exact ha ▸ hlt
    · refine ⟨d, newsz, s, ?_, .inl ⟨rfl, h.granted hfree (by omega) hpages⟩⟩
      rw [allocLoop, if_neg hlt]
      rfl

/-- Above `PGROUNDUP(oldsz)` the page table maps nothing yet. Then `allocuvm` returns `newsz` with all
the pages, or 0 with none of them. -/
theorem allocuvm_all_or_nothing {oldsz newsz : Nat} (hle : oldsz ≤ newsz) (hlt : newsz < KERNBASE)
    (habs : ∀ va < KERNBASE, pgroundup oldsz ≤ va → (d.get va).present = false) (hfree : FreeOk ld s) :
    ∃ d' r s', allocuvm ld d oldsz newsz s = .ok ((d', r), s') ∧
      (r = newsz ∧ Granted oldsz newsz d s d' s' ∨ r = 0 ∧ Withdrawn d s d' s') := by
  rw [allocuvm, if_neg (by omega), if_neg (by omega)]
  exact allocLoop_outcome (Nat.le_of_lt hlt) (le_pgroundup (by omega)) habs hfree (.start _ d s) (by simp)
    (by simp only [PGSIZE]; omega) (by simp)

/-- Three pages and a table fit into 10 free pages. With two free pages the second data page fails. -/
theorem allocuvm_all_or_nothing_three :
    (∃ d' s', allocuvm smallKernel ⟨0x300, fun _ => none⟩ 0x1800 0x5000 (freshPhys 0x400 10) =
        .ok ((d', 0x5000), s') ∧
      Granted 0x1800 0x5000 ⟨0x300, fun _ => none⟩ (freshPhys 0x400 10) d' s') ∧
    ∃ d' s', allocuvm smallKernel ⟨0x300, fun _ => none⟩ 0x1800 0x5000 (freshPhys 0x400 2) =
        .ok ((d', 0), s') ∧
      Withdrawn ⟨0x300, fun _ => none⟩ (freshPhys 0x400 2) d' s' := by
  have hfree : ∀ n ≤ 100, FreeOk smallKernel (freshPhys 0x400 n) := fun n hn =>
    freeOk_fresh (by decide) (by simp only [PGSIZE, PHYSTOP]; omega)
  have habs : ∀ va < KERNBASE, pgroundup 0x1800 ≤ va →
      (PgDir.get ⟨0x300, fun _ => none⟩ va).present = false := fun _ _ _ => rfl
  have h10 : ((allocuvm smallKernel ⟨0x300, fun _ => none⟩ 0x1800 0x5000
      (freshPhys 0x400 10)).toOption.map fun r => r.1.2) = some 0x5000 := by decide +kernel
  have h2 : ((allocuvm smallKernel ⟨0x300, fun _ => none⟩ 0x1800 0x5000
      (freshPhys 0x400 2)).toOption.map fun r => r.1.2) = some 0 := by decide +kernel
  constructor
  · obtain ⟨d', r, s', h, hg | hw⟩ := allocuvm_all_or_nothing (by decide : 0x1800 ≤ 0x5000) (by decide)
      habs (hfree 10 (by decide))
    · obtain ⟨rfl, hg⟩ := hg
      exact ⟨d', s', h, hg⟩
    · rw [h, hw.1] at h10
      cases Option.some.inj h10
  · obtain ⟨d', r, s', h, hg | hw⟩ := allocuvm_all_or_nothing (by decide : 0x1800 ≤ 0x5000) (by decide)
      habs (hfree 2 (by decide))
    · rw [h, hg.1] at h2
      cases Option.some.inj h2
    · obtain ⟨rfl, hw⟩ := hw
      exact ⟨d', s', h, hw⟩

end Xv6.Vm
