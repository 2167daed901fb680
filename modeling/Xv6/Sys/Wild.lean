import Xv6.Sys.Total
import Xv6.Vm.Alloc

/-!
# An argument string that is too long

A process prepares a fake page table entry at address 0 and calls `exec` with a string of more than
32 megabytes. `copyout` starts where the new image has no page table, takes the fake entry, and
overwrites a page table of the process. The reference counts know nothing of it.
-/

open Xv6.Cmd Xv6.Pool Xv6.Run Xv6.Vm List

namespace Xv6.Sys

variable {ld : Linker} {dom : Nat → Prop} {s s' : Phys} {own sh : Nat → Nat} {d d' : PgDir}
  {m m' : Machine} {i : Fin NPROC} {p : Proc}

/-! ## Fetching the string -/

theorem fetchLoop_map {f : Nat → UInt8} {n a : Nat} (hf : ∀ k < n, f k ≠ 0) (ha : a + n < p.sz)
    (hpres : ∀ b < p.sz, (p.pgdir.get b).present = true)
    (hstr : ∀ k < n, Phys.byte s p.pgdir (a + k) = f k) (hend : Phys.byte s p.pgdir (a + n) = 0) :
    fetchLoop s p (p.sz - a) = some (some ((List.range n).map f)) := by
  induction n generalizing a f with
  | zero =>
    obtain ⟨r, hr⟩ : ∃ r, p.sz - a = r + 1 := ⟨p.sz - a - 1, by omega⟩
    have hva : p.sz - (r + 1) = a := by omega
    rw [hr, fetchLoop, hva]
    simp [hpres a (by omega), show Phys.byte s p.pgdir a = 0 from hend]
  | succ n ih =>
    obtain ⟨r, hr⟩ : ∃ r, p.sz - a = r + 1 := ⟨p.sz - a - 1, by omega⟩
    have hva : p.sz - (r + 1) = a := by omega
    have hra : r = p.sz - (a + 1) := by omega
    have hbyte : Phys.byte s p.pgdir a = f 0 := hstr 0 (by omega)
    have hrest := ih (f := fun k => f (k + 1)) (a := a + 1) (fun k hk => hf (k + 1) (by omega)) (by omega)
      (fun k hk => by rw [show a + 1 + k = a + (k + 1) by omega]; exact hstr (k + 1) (by omega))
      (by rw [show a + 1 + n = a + (n + 1) by omega]; exact hend)
    rw [← hra] at hrest
    rw [hr, fetchLoop, hva]
    simp [hpres a (by omega), hbyte, hf 0 (by omega), hrest, range_succ_eq_map, Function.comp_def]

/-! ## An empty program -/

/-- An ELF header without program headers. -/
def emptyElf : List UInt8 := [0x7f, 0x45, 0x4c, 0x46] ++ List.replicate 48 0

theorem pdx_stack {b : Nat} (h : b / PGSIZE * PGSIZE < 0x2000) : pdx b ≠ 1015 := by
  simp only [PGSIZE] at h
  simp only [pdx]
  omega

theorem loadImage_empty (ha : Acct (Managed ld) s own sh) (hfree : 71 ≤ s.freelist.length) :
    ∃ d s', loadImage ld emptyElf s = .ok (some (d, some 0x2000), s') ∧
      Acct (Managed ld) s' (d.kernRefs + own) (d.userRefs + sh) ∧ Kept (own + sh) s s' ∧
      KernelMap ld d ∧ d.tab 1015 = none ∧ ∃ t, Took t s s' ∧ t.length ≤ 1091 := by
  obtain ⟨d0, s1, hk, hlen1⟩ := setupkvm_total ld (s := s) (by omega)
  obtain ⟨ha1, hkept1⟩ := acct_setupkvm ha hk
  have habsent : ∀ b, b < 0x2000 → (d0.get b).present = false := by
    intro b hb
    have hb' : b < KERNBASE := by simp only [KERNBASE]; omega
    rw [setupkvm_shape hk b (by omega), kernelPte_user hb']
    rfl
  obtain ⟨d1, s2, hal, -⟩ := allocuvm_total ld d0 (s := s1)
    (by decide : 0x2000 < KERNBASE) (Nat.zero_le _)
    (fun b _ hb => habsent b (by simp only [PGSIZE] at hb; omega)) (by simp only [PGSIZE]; omega)
  obtain ⟨-, ⟨hc, -⟩ | ⟨-, -, hg, hkept2⟩⟩ := allocuvm_ok ha1 hal (by decide)
  · omega
  have htab : d1.HasTab 0 := (hg.new 0 (by decide) (by decide)).1
  have hclear : clearpteu d1 (sub32 0x2000 (2 * PGSIZE)) s2 =
      .ok (d1.set 0 { d1.get 0 with user := false }, s2) := by
    rw [show sub32 0x2000 (2 * PGSIZE) = 0 from by decide, clearpteu, if_neg]
    · rfl
    · simpa [PgDir.HasTab, Option.isSome_iff_ne_none] using htab
  have hload : loadImage ld emptyElf s =
      .ok (some (d1.set 0 { d1.get 0 with user := false }, some 0x2000), s2) := by
    unfold loadImage
    rw [show readFull emptyElf 0 52 = some emptyElf from by decide]
    dsimp only
    rw [if_neg (by decide), bind_of_ok hk]
    dsimp only
    rw [show number emptyElf 44 2 = 0 from by decide,
      bind_of_ok (show loadSegs ld emptyElf 0 _ d0 0 s1 = .ok ((d0, some 0), s1) from rfl)]
    dsimp only
    rw [show pgroundup 0 = 0 from by decide, show u32 (0 + 2 * PGSIZE) = 0x2000 from by decide,
      bind_of_ok hal]
    dsimp only
    rw [if_neg (by decide), bind_of_ok hclear]
    rfl
  refine ⟨_, s2, hload, ?_, ?_, ?_, ?_, ?_⟩
  · rcases loadImage_image ha hload with ⟨hc, -⟩ | ⟨d, o, heq, ha2, -⟩
    · cases hc
    · obtain ⟨rfl, -⟩ := Prod.mk.inj (Option.some.inj heq)
      exact ha2
  · refine hkept1.trans (hkept2.mono fun q hq => ?_)
    simp only [Pi.add_apply] at *
    omega
  · rcases loadImage_image ha hload with ⟨hc, -⟩ | ⟨d, o, heq, -, hi⟩
    · cases hc
    · obtain ⟨rfl, rfl⟩ := Prod.mk.inj (Option.some.inj heq)
      exact (hi 0x2000 rfl).1.kmap
  · rw [PgDir.set_tab_of_ne (by decide), allocuvm_tab _ hal (by decide), setupkvm_tab _ hk]
    · simp [kernelTabs]
    · exact fun b hb => pdx_stack hb
  · obtain ⟨t1, ht1, hlen1⟩ := setupkvm_took hk
    obtain ⟨t2, c, ht2, -, hlen2, -, hc⟩ := allocuvm_took (Nat.zero_le _) (by decide) hal
    refine ⟨_, ht1.trans ht2, ?_⟩
    rw [show pgroundup 0 = 0 from by decide] at hc
    simp only [PGSIZE] at hc
    rw [length_append, length_cons]
    omega

/-! ## The fake entry -/

theorem number_wordBytes {w : Nat} (h : w < 0x100000000) : number (wordBytes w) 0 4 = w := by
  simp only [wordBytes, List.range, List.range.loop, map_cons, map_nil, number,
    getD_eq_getElem?_getD]
  simp
  omega

theorem ka_ofWord {q : Nat} : Pte.ka (Pte.ofWord (q * 0x1000 + 5)) = some q := by
  have h1 : (q * 0x1000 + 5) % 2 = 1 := by omega
  have h2 : (q * 0x1000 + 5) / 4 % 2 = 1 := by omega
  have h3 : (q * 0x1000 + 5) / 0x1000 = q := by omega
  simp [Pte.ka, Pte.ofWord, h1, h2, h3]

theorem uva2ka_fake {q uva : Nat} (hno : d.tab (pdx uva) = none) (hp : m.proc i = some p)
    (hpres : (p.pgdir.get 0).present = true) (hq : q < 0x100000)
    (hword : (List.range 4).map (m.phys.mem (p.pgdir.get 0).ppn) = wordBytes (q * 0x1000 + 5)) :
    uva2ka i d uva m = .ok (some q, m) := by
  unfold uva2ka
  rw [hno, hp]
  simp only [Option.isSome_none, Bool.false_eq_true, if_false, hpres, if_true, hword]
  rw [number_wordBytes (by omega), ka_ofWord]

/-! ## A page table is overwritten -/

theorem kernRefs_pokeDir (q off : Nat) (bs : List UInt8) (d : PgDir) (r : Nat) :
    (pokeDir q off bs d).kernRefs r = d.kernRefs r := by
  unfold PgDir.kernRefs
  refine congrArg _ (Finset.sum_congr rfl fun j _ => ?_)
  change tabRef ((d.tab j).map _) r = _
  cases d.tab j with
  | none => rfl
  | some t =>
    simp only [Option.map_some, tabRef]
    split <;> rfl

theorem own_poked (m : Machine) (q off : Nat) (bs : List UInt8) (r : Nat) :
    (m.poked q off bs).own r = m.own r := by
  have hsum : ∑ i, kernOf ((m.poked q off bs).proc i) r = ∑ i, kernOf (m.proc i) r := by
    refine Finset.sum_congr rfl fun i _ => ?_
    change kernOf ((m.proc i).map _) r = _
    cases m.proc i with
    | none => rfl
    | some p => simp only [Option.map_some, kernOf, kernRefs_pokeDir]
  unfold Machine.own
  rw [hsum]
  simp only [Machine.poked, kernRefs_pokeDir]

theorem tab_unique {t : PgTab} {l : Nat} (hone : d.kernRefs t.page ≤ 1) (hl : l < NPDENTRIES)
    (ht : d.tab l = some t) :
    d.page ≠ t.page ∧ ∀ j t', j < NPDENTRIES → d.tab j = some t' → t'.page = t.page → j = l := by
  have hl1 : tabRef (d.tab l) t.page = 1 := by rw [ht, tabRef, one_self]
  unfold PgDir.kernRefs at hone
  constructor
  · intro hc
    have hle := Finset.single_le_sum (f := fun j => tabRef (d.tab j) t.page) (fun _ _ => Nat.zero_le _)
      (Finset.mem_range.mpr hl)
    rw [hl1] at hle
    rw [hc, one_self] at hone
    omega
  · intro j t' hj ht' hp
    by_contra hne
    have hsub : ({l, j} : Finset Nat) ⊆ Finset.range NPDENTRIES := by
      intro k hk
      rcases Finset.mem_insert.mp hk with rfl | hk
      · exact Finset.mem_range.mpr hl
      · rw [Finset.mem_singleton.mp hk]
        exact Finset.mem_range.mpr hj
    have hle := Finset.sum_le_sum_of_subset (f := fun j => tabRef (d.tab j) t.page) hsub
    rw [Finset.sum_pair (Ne.symm hne)] at hle
    have hj1 : tabRef (d.tab j) t.page = 1 := by rw [ht', tabRef, hp, one_self]
    rw [hl1, hj1] at hle
    omega

/-- The first page table of the process in slot `i`. -/
structure FirstTab (m : Machine) (i : Fin NPROC) (p : Proc) (t : PgTab) : Prop where
  proc : m.proc i = some p
  tab : p.pgdir.tab 0 = some t

section FirstTab

variable {t : PgTab}

theorem FirstTab.tabRef_eq (h : FirstTab m i p t) : tabRef (p.pgdir.tab 0) t.page = 1 := by
  rw [h.tab, tabRef, one_self]

theorem FirstTab.kernRefs (h : FirstTab m i p t) :
    one p.pgdir.page t.page + 1 ≤ p.pgdir.kernRefs t.page := by
  unfold PgDir.kernRefs
  have hle := Finset.single_le_sum (f := fun j => tabRef (p.pgdir.tab j) t.page)
    (fun _ _ => Nat.zero_le _) (Finset.mem_range.mpr (by decide : 0 < NPDENTRIES))
  rw [h.tabRef_eq] at hle
  omega

theorem FirstTab.alone (h : FirstTab m i p t) (hone : m.own t.page ≤ 1) :
    m.kpgdir.kernRefs t.page = 0 ∧ m.apstacks.count t.page = 0 ∧
    (m.pipes.map Pipe.page).count t.page = 0 ∧ (∀ k, k ≠ i → kernOf (m.proc k) t.page = 0) ∧
    p.kstack ≠ t.page ∧ p.pgdir.page ≠ t.page ∧ p.pgdir.kernRefs t.page = 1 := by
  have hk := h.kernRefs
  have hown := own_eq m i t.page
  rw [h.proc, kernOf] at hown
  have hrest : (m.setProc i none).own t.page = 0 := by
    change m.ownRest i t.page = 0
    omega
  have hkey : ∀ x, one x t.page = 0 → x ≠ t.page := by
    rintro x hx rfl
    simp at hx
  have hsum : ∀ k, k ≠ i → kernOf (m.proc k) t.page = 0 := by
    intro k hki
    have := kernOf_le_own (m.setProc i none) k t.page
    simp only [Machine.setProc, Function.update_of_ne hki] at this
    simp only [Machine.setProc] at hrest
    omega
  simp only [Machine.own, Machine.setProc] at hrest
  exact ⟨by omega, by omega, by omega, hsum, hkey _ (by omega), hkey _ (by omega), by omega⟩

theorem FirstTab.unique (h : FirstTab m i p t) (hone : p.pgdir.kernRefs t.page = 1) {j : Nat}
    {t' : PgTab} (hj : j < NPDENTRIES) (ht : p.pgdir.tab j = some t') (hp : t'.page = t.page) :
    j = 0 :=
  (tab_unique (Nat.le_of_eq hone) (by decide) h.tab).2 j t' hj ht hp

/-- The write is not caught: the page is no kernel data that the model keeps elsewhere. -/
theorem FirstTab.not_kernelData (h : FirstTab m i p t)
    (ha : Acct (Managed ld) m.phys (d.kernRefs + m.own) sh) : ¬ m.KernelData ld d t.page := by
  have hs := ha.single t.page
  simp only [Pi.add_apply] at hs
  have hown := own_eq m i t.page
  have hk := h.kernRefs
  rw [h.proc, kernOf] at hown
  obtain ⟨h1, h2, h3, h4, h5, h6, -⟩ := h.alone (by omega)
  have hin : ∀ {d : PgDir}, d.kernRefs t.page = 0 → d.page ≠ t.page := by
    rintro d hd heq
    have := (kernRefs_pos_iff d t.page).mpr (.inl heq)
    omega
  rintro (hm | hf | hst | hkp | hd | ⟨pp, hpp, hpg⟩ | ⟨k, pk, hpk, hkk⟩)
  · exact (managed_iff ld t.page).mpr (ha.inDom _ (by simp only [Pi.add_apply]; omega)) hm
  · have := ((ha.mem _).mp hf).2
    simp only [Pi.add_apply] at this
    omega
  · have := count_pos_iff.mpr hst
    omega
  · exact hin h1 hkp.symm
  · exact hin (by omega) hd.symm
  · have := count_pos_iff.mpr (mem_map.mpr ⟨pp, hpp, hpg⟩)
    omega
  · have hpk' : m.proc k = some pk := hpk
    by_cases hki : k = i
    · subst hki
      obtain rfl := Option.some.inj (h.proc.symm.trans hpk')
      rcases hkk with hkk | hkk
      · exact h5 hkk
      · exact h6 hkk
    · have h0 := h4 k hki
      rw [hpk', kernOf] at h0
      rcases hkk with hkk | hkk
      · rw [hkk, one_self] at h0
        omega
      · exact hin (by omega) hkk

/-- The bytes that end up in the last entry of the table. They say that there is no page. -/
def fakeBytes : List UInt8 := [2, 2, 2, 2]

theorem pokeEntry_fake {j : Nat} (hj : j < 1024) (e : Pte) :
    pokeEntry j 0xffc fakeBytes e = if j = 1023 then Pte.ofWord 0x02020202 else e := by
  unfold pokeEntry
  by_cases h : j = 1023
  · subst h
    simp [writeBytes, fakeBytes, List.range, List.range.loop, number]
  · rw [if_neg (by simp only [fakeBytes, length_cons, length_nil]; omega), if_neg h]

theorem FirstTab.get_poked (h : FirstTab m i p t) (hone : p.pgdir.kernRefs t.page = 1) {va : Nat}
    (hva : va < 0x100000000) :
    (pokeDir t.page 0xffc fakeBytes p.pgdir).get va =
      if va / PGSIZE = 0x3ff then Pte.ofWord 0x02020202 else p.pgdir.get va := by
  have hptx : ptx va < 1024 := Nat.mod_lt _ (by decide)
  have hpg : (pdx va = 0 ∧ ptx va = 1023) ↔ va / PGSIZE = 0x3ff := by
    simp only [pdx, ptx, PGSIZE]
    omega
  cases ht : p.pgdir.tab (pdx va) with
  | none =>
    have hne : pdx va ≠ 0 := by
      intro hc
      rw [hc, h.tab] at ht
      cases ht
    simp only [PgDir.get, pokeDir, ht, Option.map_none]
    rw [if_neg fun hc => hne (hpg.mpr hc).1]
  | some t' =>
    simp only [PgDir.get, pokeDir, ht, Option.map_some]
    by_cases hp : t'.page = t.page
    · have h0 := h.unique hone (pdx_lt va) ht hp
      simp only [hp, if_true, pokeEntry_fake hptx]
      by_cases h1 : ptx va = 1023
      · rw [if_pos h1, if_pos (hpg.mp ⟨h0, h1⟩)]
      · rw [if_neg h1, if_neg fun hc => h1 (hpg.mpr hc).2]
    · have hne : pdx va ≠ 0 := by
        intro hc
        rw [hc, h.tab] at ht
        obtain rfl := Option.some.inj ht
        exact hp rfl
      simp only [hp, if_false]
      rw [if_neg fun hc => hne (hpg.mpr hc).1]

theorem FirstTab.not_accounting {ph : Phys} (h : FirstTab m i p t) (hinv : Inv ld m)
    (ha : Acct (Managed ld) ph m.own m.shared) (hpres : (p.pgdir.get 0x3ff000).present = true)
    (hwr : (p.pgdir.get 0x3ff000).writable = true) :
    ¬ Accounting ld { m.poked t.page 0xffc fakeBytes with phys := ph } := by
  intro hacc
  obtain ⟨q, hq⟩ : ∃ q, q = (p.pgdir.get 0x3ff000).ppn := ⟨_, rfl⟩
  have hone := hinv.excl i p h.proc 0x3ff000 (by decide) hpres hwr
  have hpos := PgDir.userRefs_pos hpres (by decide)
  rw [← hq] at hone hpos
  have hrest := shared_eq m i q
  rw [h.proc, userOf] at hrest
  have hown0 : m.own q = 0 := by
    have := ha.excl q
    omega
  obtain ⟨halone1, -, -, halone4, -, -, hkr⟩ := h.alone (ha.single _)
  have hm : Managed ld q := ha.inDom q (by omega)
  have hcount := hacc.count q hm
  have hrefc := ha.count q hm
  -- No entry holds the page any more.
  have huser : (pokeDir t.page 0xffc fakeBytes p.pgdir).userRefs q = 0 := by
    by_contra hc
    obtain ⟨va, hva, hpr, hppn⟩ := exists_of_userRefs_pos (Nat.pos_of_ne_zero hc)
    have hva' : va < 0x100000000 := by simp only [KERNBASE] at hva; omega
    rw [h.get_poked hkr hva'] at hpr hppn
    split at hpr
    · cases hpr
    · next hne =>
      rw [if_neg hne] at hppn
      have := PgDir.two_le_userRefs hpr hva hpres (by decide) (by rw [hppn, hq]) hne
      rw [hppn] at this
      omega
  have hshared : (m.poked t.page 0xffc fakeBytes).shared q = 0 := by
    unfold Machine.shared
    have hsum : ∑ k, userOf ((m.poked t.page 0xffc fakeBytes).proc k) q = 0 := by
      refine Finset.sum_eq_zero fun k _ => ?_
      change userOf ((m.proc k).map _) q = 0
      by_cases hki : k = i
      · subst hki
        rw [h.proc]
        exact huser
      · have hle := userOf_le_rest hki q (m := m)
        cases hpk : m.proc k with
        | none => rfl
        | some pk =>
          have h0 := halone4 k hki
          rw [hpk, kernOf] at h0
          have hsame := pokeDir_same (d := pk.pgdir) 0xffc fakeBytes (q := t.page) (by omega)
          rw [hpk, userOf] at hle
          simp only [Option.map_some, userOf, hsame.userRefs]
          omega
    have hkp := (pokeDir_same 0xffc fakeBytes halone1).userRefs q
    have hk0 : m.kpgdir.userRefs q ≤ m.sharedRest i q := by
      simp only [Machine.sharedRest, Machine.shared, Machine.setProc]
      omega
    rw [hsum]
    simp only [Machine.poked, hkp]
    omega
  have hnot : ¬ ({ m.poked t.page 0xffc fakeBytes with phys := ph } : Machine).KernelUse q := by
    intro hu
    have : 0 < (m.poked t.page 0xffc fakeBytes).own q := (own_pos_iff _ _).mpr hu
    rw [own_poked] at this
    omega
  rw [if_neg hnot] at hcount
  change ph.refc_cnt q = (m.poked t.page 0xffc fakeBytes).shared q + _ at hcount
  rw [hshared] at hcount
  omega

/-- The length of the string, such that its copy starts 4 bytes below device memory. -/
def longLen : Nat := 0x2002003

theorem sp_long : sub32 0x2000 (longLen + 1) / 4 * 4 = 0xfdfffffc := by decide

theorem take_long {n : Nat} (h : 4 ≤ n) :
    (List.replicate n (2 : UInt8) ++ [0]).take 4 = fakeBytes := by
  obtain ⟨k, rfl⟩ : ∃ k, n = k + 4 := ⟨n - 4, by omega⟩
  simp [replicate_succ, fakeBytes]

theorem copyout_long (h : FirstTab m i p t) (hk : KernelMap ld d) (hno : d.tab 1015 = none)
    (ha : Acct (Managed ld) m.phys (d.kernRefs + m.own) sh)
    (hpres : (p.pgdir.get 0).present = true)
    (hword : (List.range 4).map (m.phys.mem (p.pgdir.get 0).ppn) = wordBytes (t.page * 0x1000 + 5)) :
    copyout ld i d 0xfdfffffc (List.replicate longLen 2 ++ [0]) m =
      .ok ((pokeDir t.page 0xffc fakeBytes d, false), m.poked t.page 0xffc fakeBytes) := by
  have hown := own_eq m i t.page
  have hkr := h.kernRefs
  have hs := ha.single t.page
  rw [h.proc, kernOf] at hown
  simp only [Pi.add_apply] at hs
  have hq : t.page < 0x100000 := by
    have hman := ha.inDom t.page (by simp only [Pi.add_apply]; omega)
    have := hman.2
    simp only [PGSIZE, PHYSTOP] at this
    omega
  have hka : uva2ka i d 0xfdfff000 m = .ok (some t.page, m) := uva2ka_fake hno h.proc hpres hq hword
  have hpoke : poke ld d t.page 0xffc fakeBytes m =
      .ok (pokeDir t.page 0xffc fakeBytes d, m.poked t.page 0xffc fakeBytes) := by
    unfold poke
    rw [if_neg (h.not_kernelData ha)]
    rfl
  have hsame := pokeDir_same (d := d) 0xffc fakeBytes (q := t.page) (by omega)
  have hlen : (List.replicate longLen (2 : UInt8) ++ [0]).length = longLen + 1 := by simp
  have hrest : (List.replicate longLen (2 : UInt8) ++ [0]).drop 4 ≠ [] := by
    rw [Ne, ← length_eq_zero_iff, length_drop, hlen]
    decide
  have hnext := copyLoop_devspace 0xfe000000 (i := i) (n := longLen - 1)
    (m := m.poked t.page 0xffc fakeBytes) (hk.congr fun va _ _ => hsame.get va) (by decide) (by decide)
    hrest
  rw [show longLen - 1 + 1 = longLen from by decide] at hnext
  unfold copyout
  rw [hlen, copyLoop, hlen, if_neg (by decide), show pgrounddown 0xfdfffffc = 0xfdfff000 from by decide,
    bind_of_ok hka]
  dsimp only
  rw [show (if longLen + 1 < PGSIZE - (0xfdfffffc - 0xfdfff000) then longLen + 1
      else PGSIZE - (0xfdfffffc - 0xfdfff000)) = 4 from by decide, take_long (by decide),
    show 0xfdfffffc - 0xfdfff000 = 0xffc from by decide, bind_of_ok hpoke,
    show u32 (0xfdfff000 + PGSIZE) = 0xfe000000 from by decide]
  exact hnext

theorem exec_long (h : FirstTab m i p t) (hinv : Inv ld m) (hfree : 71 ≤ m.phys.freelist.length)
    (hpres : (p.pgdir.get 0).present = true)
    (hword : (List.range 4).map (m.phys.mem (p.pgdir.get 0).ppn) = wordBytes (t.page * 0x1000 + 5)) :
    ∃ ph, exec ld i (some emptyElf) [List.replicate longLen 2] m =
      .ok (false, { m.poked t.page 0xffc fakeBytes with phys := ph }) ∧
      Acct (Managed ld) ph m.own m.shared := by
  obtain ⟨d, ph, hl, ha, hkept, hkmap, hno, -⟩ := loadImage_empty hinv.acct hfree
  have h1 : FirstTab { m with phys := ph } i p t := ⟨h.proc, h.tab⟩
  have hmem : ph.mem (p.pgdir.get 0).ppn = m.phys.mem (p.pgdir.get 0).ppn := by
    refine hkept _ ?_
    have hpos := PgDir.userRefs_pos hpres (by decide)
    have hsh := shared_eq m i (p.pgdir.get 0).ppn
    rw [h.proc, userOf] at hsh
    simp only [Pi.add_apply]
    omega
  have hcopy := copyout_long h1 hkmap hno ha hpres (by rw [← hword]; simp only [hmem])
  have hs := ha.single t.page
  have hown := own_eq m i t.page
  have hkr := h.kernRefs
  rw [h.proc, kernOf] at hown
  simp only [Pi.add_apply] at hs
  have hsame := pokeDir_same (d := d) 0xffc fakeBytes (q := t.page) (by omega)
  have ha2 : Acct (Managed ld) (({ m with phys := ph } : Machine).poked t.page 0xffc fakeBytes).phys
      ((pokeDir t.page 0xffc fakeBytes d).kernRefs + m.own)
      ((pokeDir t.page 0xffc fakeBytes d).userRefs + m.shared) :=
    acct_setMem (ha.congr (fun q => by simp only [Pi.add_apply, hsame.kernRefs])
      fun q => by simp only [Pi.add_apply, hsame.userRefs]) _
  obtain ⟨ph2, hf⟩ := freevm_total (fun _ (hq : Managed ld _) => hq) ha2
  refine ⟨ph2, ?_, (acct_freevm ha2 hf).1⟩
  have hargs : pushArgs ld i [List.replicate longLen 2] d 0x2000 [] { m with phys := ph } =
      .ok ((pokeDir t.page 0xffc fakeBytes d, none),
        ({ m with phys := ph } : Machine).poked t.page 0xffc fakeBytes) := by
    rw [pushArgs, if_neg (by decide), length_replicate, sp_long, bind_of_ok hcopy]
    rfl
  have hstack : pushStack ld i [List.replicate longLen 2] d 0x2000 { m with phys := ph } =
      .ok ((pokeDir t.page 0xffc fakeBytes d, false),
        ({ m with phys := ph } : Machine).poked t.page 0xffc fakeBytes) := by
    unfold pushStack
    rw [bind_of_ok hargs]
    rfl
  unfold exec
  dsimp only
  rw [bind_of_ok (onPhys_of_ok hl)]
  dsimp only
  rw [bind_of_ok hstack]
  dsimp only
  rw [if_neg (by decide), bind_of_ok (onPhys_of_ok hf)]
  rfl

end FirstTab

/-! ## The run -/

/-- What the process writes: the fake entry for the page `q`, and a string from address 0x1000 on. -/
def payload (q a : Nat) : UInt8 :=
  if a < 4 then (wordBytes (q * 0x1000 + 5)).getD a 0 else if a < 0x1000 then 0 else 2

theorem word_found {w : Nat} (h : ∀ a < 4, Phys.byte s p.pgdir a = (wordBytes w).getD a 0) :
    (List.range 4).map (s.mem (p.pgdir.get 0).ppn) = wordBytes w := by
  have hmem : ∀ a < 4, s.mem (p.pgdir.get 0).ppn a = (wordBytes w).getD a 0 := by
    intro a ha
    rw [← h a ha, Phys.byte, ← PgDir.get_page p.pgdir a, show a / PGSIZE = 0 from by
      simp only [PGSIZE]; omega, Nat.mod_eq_of_lt (by simp only [PGSIZE]; omega)]
    rfl
  simp only [List.range, List.range.loop, map_cons, map_nil, hmem 0 (by omega), hmem 1 (by omega),
    hmem 2 (by omega), hmem 3 (by omega)]
  simp [wordBytes, List.range, List.range.loop]

/-- The calls of the first process, whose first page table is `q`. -/
def wildActs (q : Nat) : List Act :=
  [.userinit [], .growproc initproc 0x2003000] ++ storeActs initproc (payload q) (0x1000 + longLen) ++
    [.exec initproc (some emptyElf) [0x1000]]

theorem sys_exec_of_string {addr : Nat} {arg : List UInt8} {r : Bool} {ip : Option (List UInt8)}
    (hf : fetchstr m.phys p addr = some (some arg)) (he : exec ld i ip [arg] m = .ok (r, m')) :
    sys_exec ld i p ip [addr] m = .ok (r, m') := by
  have hargs : fetchArgs m.phys p ([addr].take MAXARG) = some (some [arg]) := by
    rw [show [addr].take MAXARG = [addr] from rfl, fetchArgs, hf]
    rfl
  unfold sys_exec
  rw [hargs]
  dsimp only
  rw [length_singleton, if_neg (by decide)]
  exact he

theorem payload_found {t : PgTab} {s : Phys} (hsz : p.sz = 0x2004000)
    (hpres : ∀ a < p.sz, (p.pgdir.get a).present = true)
    (hbyte : ∀ a < 0x1000 + longLen, Phys.byte s p.pgdir a = payload t.page a)
    (hend : Phys.byte s p.pgdir (0x1000 + longLen) = 0) :
    fetchstr s p 0x1000 = some (some (List.replicate longLen 2)) ∧
    (List.range 4).map (s.mem (p.pgdir.get 0).ppn) = wordBytes (t.page * 0x1000 + 5) := by
  have hlen : longLen = 0x2002003 := rfl
  constructor
  · unfold fetchstr
    rw [if_neg (by omega)]
    rw [← length_range (n := longLen), ← map_const']
    refine fetchLoop_map (fun _ _ => by decide) (by omega) hpres (fun k hk => ?_) hend
    rw [hbyte _ (by omega), payload, if_neg (by omega), if_neg (by omega)]
  · refine word_found fun a ha => ?_
    rw [hbyte a (by omega), payload, if_pos ha]

/-- The calls before the `exec`. -/
def wildPrep (q : Nat) : List Act :=
  [.userinit [], .growproc initproc 0x2003000] ++ storeActs initproc (payload q) (0x1000 + longLen)

/-- The first process `p` has written the fake entry for its first page table `t`, and the string. -/
structure Prepared (m0 m : Machine) (p : Proc) (t : PgTab) : Prop where
  boot : boot demoLinker 1 (fun _ _ => 0) = .ok m0
  run : follow (next demoLinker) m0 (wildPrep t.page) = some m
  inv : Inv demoLinker m
  free : 71 ≤ m.phys.freelist.length
  first : FirstTab m initproc p t
  live : p.zombie = false
  present : (p.pgdir.get 0).present = true
  string : fetchstr m.phys p 0x1000 = some (some (List.replicate longLen 2))
  word : (List.range 4).map (m.phys.mem (p.pgdir.get 0).ppn) = wordBytes (t.page * 0x1000 + 5)
  last : (p.pgdir.get 0x3ff000).present = true ∧ (p.pgdir.get 0x3ff000).writable = true

theorem exists_prepared : ∃ m0 m p t, Prepared m0 m p t := by
  obtain ⟨m0, m1, p, hboot, hgrow, hinv1, hfree1, hp1, -, hz, hsz, hmaps, hzero⟩ :=
    first_growth (c := 1) (n := 0x2003000) (by decide) (by decide) (by decide)
  have hsz' : p.sz = 0x2004000 := by rw [hsz]
  rw [show ((0x2003000 : Nat) : Int) = 0x2003000 from rfl] at hgrow
  have hpres : ∀ a < p.sz, (p.pgdir.get a).present = true := fun a ha => (hmaps a ha).1.2.1
  have htab : (p.pgdir.tab 0).isSome = true := PgDir.hasTab_of_present (hpres 0 (by omega))
  obtain ⟨t, ht⟩ := Option.isSome_iff_exists.mp htab
  have hw := writes_of_inv hinv1 hp1 hz hmaps
  obtain ⟨ph, hst, hinv2, ⟨mem, hmem⟩, hbyte⟩ :=
    follow_stores (n := 0x1000 + longLen) (payload t.page) hinv1 hp1 hw (by rw [hsz']; decide)
  have hlen : longLen = 0x2002003 := rfl
  obtain ⟨hstr, hword⟩ := payload_found (t := t) (s := ph) hsz' hpres
    (fun a ha => by rw [hbyte a (by omega), if_pos ha]) (by
      rw [hbyte _ (by omega), if_neg (by omega)]
      exact hzero _ (by simp only [PGSIZE]; omega) (by omega))
  have hX := hmaps 0x3ff000 (by omega)
  refine ⟨m0, { m1 with phys := ph }, p, t, hboot, ?_, hinv2, ?_, ⟨hp1, ht⟩, hz, hpres 0 (by omega), hstr,
    hword, hX.1.2.1, hX.2⟩
  · rw [wildPrep, follow_append, hgrow, Option.bind_some, hst]
  · rw [hmem]
    exact hfree1

theorem wild_run : ∃ m0 q m, boot demoLinker 1 (fun _ _ => 0) = .ok m0 ∧
    follow (next demoLinker) m0 (wildActs q) = some m ∧ ¬ Accounting demoLinker m := by
  obtain ⟨m0, m, p, t, h⟩ := exists_prepared
  obtain ⟨ph, he, hacct⟩ := exec_long h.first h.inv h.free h.present h.word
  refine ⟨m0, t.page, _, h.boot, ?_, h.first.not_accounting h.inv hacct h.last.1 h.last.2⟩
  have hnext := by_of_ok (f := fun p => do
      let _ ← sys_exec demoLinker initproc p (some emptyElf) [0x1000])
    h.first.proc h.live (discard_of_ok (sys_exec_of_string h.string he))
  rw [show wildActs t.page = wildPrep t.page ++ [.exec initproc (some emptyElf) [0x1000]] from rfl,
    follow_append, h.run, Option.bind_some, follow, next, hnext]
  rfl

end Xv6.Sys
