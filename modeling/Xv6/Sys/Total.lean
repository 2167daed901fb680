import Xv6.Sys.Reach
import Xv6.Vm.Take

/-!
# Calls that succeed

With enough free pages, `boot`, `userinit` and `growproc` come to their end.
-/

open Xv6.Cmd Xv6.Pool Xv6.Run Xv6.Vm Function List

namespace Xv6.Sys

variable {ld : Linker} {dom : Nat → Prop} {s s' : Phys} {own sh : Nat → Nat} {d d' : PgDir}
  {m m' : Machine} {i : Fin NPROC} {p : Proc}

theorem kalloc_total (h : 0 < s.freelist.length) :
    ∃ q s', kalloc s = .ok (some q, s') ∧ s.freelist.length = s'.freelist.length + 1 := by
  cases hf : s.freelist with
  | nil => simp [hf] at h
  | cons q rest =>
    have hk : kalloc s =
        .ok (some q, { s.setRefc q 1 with freelist := rest, freecnt := s.freecnt - 1 }) := by
      unfold kalloc
      rw [hf]
    exact ⟨q, _, hk, rfl⟩

/-! ## Boot -/

theorem startothers_total {n : Nat} (h : n ≤ s.freelist.length) :
    ∃ l s', startothers n s = .ok (l, s') := by
  induction n generalizing s with
  | zero => exact ⟨[], s, rfl⟩
  | succ n ih =>
    obtain ⟨q, s1, hk, hlen⟩ := kalloc_total (s := s) (by omega)
    obtain ⟨l, s2, hr⟩ := ih (s := s1) (by omega)
    refine ⟨q :: l, s2, ?_⟩
    unfold startothers
    rw [bind_of_ok hk]
    dsimp only
    rw [bind_of_ok hr]
    rfl

theorem boot_total (ld : Linker) {ncpu : Nat} (mem : Nat → Page) (h : firstPage ld + 65 + ncpu ≤ 0x400) :
    ∃ m, boot ld ncpu mem = .ok m ∧ 0xdc00 ≤ m.phys.freelist.length := by
  obtain ⟨s1, h1, ha1, hlen1⟩ := acct_kinit1 ld mem
  obtain ⟨d, s2, h2, hlen2⟩ := setupkvm_total ld (s := s1) (by omega)
  obtain ⟨l, s3, h3⟩ := startothers_total (n := ncpu - 1) (s := s2) (by omega)
  obtain ⟨s4, h4, -, hlen4⟩ := acct_kinit2 (end_le_of_firstPage (by omega)) (acct_startothers (acct_setupkvm ha1 h2).1 h3)
  have hkvm : kvmalloc ld s1 = .ok (d, s2) := by
    unfold kvmalloc
    rw [bind_of_ok h2]
    rfl
  have hmain : bootMain ld ncpu (powerOn mem) = .ok ((d, l), s4) := by
    unfold bootMain
    rw [bind_of_ok h1, bind_of_ok hkvm, bind_of_ok h3, bind_of_ok h4]
    rfl
  refine ⟨⟨s4, d, l, fun _ => none, []⟩, ?_, ?_⟩
  · rw [boot, hmain]
    rfl
  · dsimp only
    omega

/-! ## `userinit` -/

theorem unused_zero (h : m.proc initproc = none) : m.unused = some initproc := by
  have hrange : List.finRange NPROC = initproc :: (List.finRange NPROC).tail := by decide
  unfold Machine.unused
  rw [hrange, List.find?_cons_of_pos (by simp [h])]

theorem exists_unused {k : Fin NPROC} (h : m.proc k = none) : ∃ j, m.unused = some j := by
  refine Option.isSome_iff_exists.mp (List.find?_isSome.mpr ⟨k, mem_finRange _, ?_⟩)
  rw [h]
  rfl

theorem map_total {a : Nat} (q : Nat) (perm : Perm) (ha : a % PGSIZE = 0) (hlt : a < KERNBASE)
    (hnew : (d.get a).present = false) (hfree : 0 < s.freelist.length) :
    ∃ d1 s1, mappages d a PGSIZE (q * PGSIZE) perm s = .ok ((d1, true), s1) ∧
      s.freelist.length ≤ s1.freelist.length + 1 := by
  have hmiss : missing {pdx a} d ≤ 1 := by
    refine Nat.le_trans (Finset.card_filter_le _ _) ?_
    rw [Finset.card_singleton]
  have hpage : ∀ b, a ≤ b → b < a + 0 * PGSIZE + PGSIZE → b / PGSIZE * PGSIZE = a := by
    intro b h1 h2
    simp only [PGSIZE] at *
    omega
  have heq : mappages d a PGSIZE (q * PGSIZE) perm = mapLoop perm 0 d a (q * PGSIZE) :=
    mappages_eq ha (by decide) (by decide) (by simp only [KERNBASE, PGSIZE] at *; omega)
  rw [heq]
  obtain ⟨d1, s1, hm, hlen⟩ := mapLoop_total (s := s) (I := {pdx a}) (n := 0) perm (q * PGSIZE) ha
    (by simp only [KERNBASE, PGSIZE] at *; omega)
    (fun b h1 h2 => by
      have := hpage b h1 h2
      rw [Finset.mem_singleton]
      simp only [pdx, PGSIZE] at *
      omega)
    (fun b h1 h2 => by rw [← PgDir.get_page, hpage b h1 h2]; exact hnew) (by omega)
  exact ⟨d1, s1, hm, by omega⟩

theorem userinit_total (ld : Linker) {init : List UInt8} (hnone : ∀ i, m.proc i = none)
    (hfree : 68 ≤ m.phys.freelist.length) (hinit : init.length < PGSIZE) :
    ∃ m' d kstack, userinit ld init m = .ok ((), m') ∧
      m'.proc initproc = some (firstProc d kstack) ∧
      (∀ k, k ≠ initproc → m'.proc k = none) ∧
      (d.get 0).present = true ∧ (d.get 0).writable = true ∧ (d.get 0).user = true ∧
      m.phys.freelist.length ≤ m'.phys.freelist.length + 68 := by
  obtain ⟨kstack, ph1, hk, hlen1⟩ := kalloc_total (s := m.phys) (by omega)
  obtain ⟨d0, ph2, hs, hlen2⟩ := setupkvm_total ld (s := ph1) (by omega)
  obtain ⟨q, ph3, hq, hlen3⟩ := kalloc_total (s := ph2) (by omega)
  have habsent : (d0.get 0).present = false := by
    rw [setupkvm_shape hs 0 (by decide), kernelPte_user (by decide)]
    rfl
  obtain ⟨d, ph4, hm, hlen4⟩ := map_total q userPerm
    (s := ph3.setMem q fun _ => 0) (by decide) (by decide) habsent
    (by change 0 < ph3.freelist.length; omega)
  have hget := (map_user_shape (by decide) (by decide) hm).2.2 rfl
  have hget0 : d.get 0 = userPerm.pte q := by rw [hget.2.2 0 (by decide), if_pos rfl]
  have halloc : allocproc m = .ok (some (initproc, kstack), { m with phys := ph1 }) := by
    unfold allocproc
    rw [unused_zero (hnone _)]
    dsimp only
    rw [bind_of_ok (onPhys_of_ok hk)]
    rfl
  have hinit' : inituvm d0 init ph2 = .ok (d, ph4.setMem q fun i => init.getD i 0) := by
    unfold inituvm
    rw [if_neg (by omega), bind_of_ok hq]
    dsimp only
    rw [bind_of_ok (show memset q 0 ph3 = .ok ((), ph3.setMem q fun _ => 0) from rfl), bind_of_ok hm]
    rfl
  refine ⟨{ m.setProc initproc (some (firstProc d kstack)) with
    phys := ph4.setMem q fun i => init.getD i 0 }, d, kstack, ?_, ?_, ?_, by rw [hget0]; rfl,
    by rw [hget0]; rfl, by rw [hget0]; rfl, ?_⟩
  · unfold userinit
    rw [bind_of_ok halloc]
    dsimp only
    rw [bind_of_ok (onPhys_of_ok hs)]
    dsimp only
    rw [bind_of_ok (onPhys_of_ok hinit')]
    rfl
  · simp [Machine.setProc]
  · intro k hk
    simp [Machine.setProc, update_of_ne hk, hnone]
  · change m.phys.freelist.length ≤ ph4.freelist.length + 68
    change ph3.freelist.length ≤ _ at hlen4
    omega

/-! ## `growproc` -/

theorem allocLoop_total (ld : Linker) (oldsz : Nat) {newsz n a : Nat} (hnew : newsz ≤ KERNBASE)
    (hal : a % PGSIZE = 0) (hn : newsz ≤ a + n * PGSIZE)
    (habs : ∀ b, a ≤ b → b / PGSIZE * PGSIZE < newsz → (d.get b).present = false)
    (hfree : 2 * n ≤ s.freelist.length) :
    ∃ d' s', allocLoop ld oldsz newsz n d a s = .ok ((d', newsz), s') ∧
      s.freelist.length ≤ s'.freelist.length + 2 * n := by
  induction n generalizing d s a with
  | zero =>
    refine ⟨d, s, ?_, Nat.le_add_right _ _⟩
    unfold allocLoop
    rw [if_neg (by omega)]
    rfl
  | succ n ih =>
    unfold allocLoop
    by_cases ha : a < newsz
    · obtain ⟨q, s1, hk, hlen1⟩ := kalloc_total (s := s) (by omega)
      have habs0 : (d.get a).present = false := habs a (Nat.le_refl _) (by
        simp only [PGSIZE] at *
        omega)
      obtain ⟨d1, s2, hm, hlen2⟩ := map_total q userPerm
        (s := s1.setMem q fun _ => 0) hal (by omega) habs0 (by change 0 < s1.freelist.length; omega)
      change s1.freelist.length ≤ _ at hlen2
      have hget := ((map_user_shape hal (by omega) hm).2.2 rfl).2.2
      have hu : u32 (a + PGSIZE) = a + PGSIZE :=
        u32_of_lt (by simp only [KERNBASE, PGSIZE] at *; omega)
      obtain ⟨d2, s3, hr, hlen3⟩ := ih (d := d1) (s := s2) (a := a + PGSIZE)
        (by simp only [PGSIZE] at *; omega) (by simp only [PGSIZE] at *; omega)
        (fun b h1 h2 => by
          rw [hget b (by simp only [KERNBASE, PGSIZE] at *; omega), if_neg]
          · exact habs b (by omega) h2
          · simp only [PGSIZE] at *
            omega)
        (by omega)
      refine ⟨d2, s3, ?_, by omega⟩
      rw [if_pos ha, bind_of_ok hk]
      dsimp only
      rw [bind_of_ok (show memset q 0 s1 = .ok ((), s1.setMem q fun _ => 0) from rfl), bind_of_ok hm]
      dsimp only
      rw [if_pos rfl, hu]
      exact hr
    · rw [if_neg ha]
      exact ⟨d, s, rfl, Nat.le_add_right _ _⟩

theorem allocuvm_total (ld : Linker) (d : PgDir) {oldsz newsz : Nat} (hnew : newsz < KERNBASE)
    (hle : oldsz ≤ newsz)
    (habs : ∀ b, pgroundup oldsz ≤ b → b / PGSIZE * PGSIZE < newsz → (d.get b).present = false)
    (hfree : 2 * (newsz / PGSIZE + 1) ≤ s.freelist.length) :
    ∃ d' s', allocuvm ld d oldsz newsz s = .ok ((d', newsz), s') ∧
      s.freelist.length ≤ s'.freelist.length + 2 * (newsz / PGSIZE + 1) := by
  have hrounds : (newsz - pgroundup oldsz) / PGSIZE ≤ newsz / PGSIZE :=
    Nat.div_le_div_right (Nat.sub_le _ _)
  obtain ⟨d', s', hr, hlen⟩ := allocLoop_total ld oldsz (s := s)
    (n := (newsz - pgroundup oldsz) / PGSIZE + 1) (Nat.le_of_lt hnew) (pgroundup_mod oldsz)
    (by simp only [PGSIZE] at *; omega) habs (by omega)
  refine ⟨d', s', ?_, by omega⟩
  unfold allocuvm
  rw [if_neg (by omega), if_neg (by omega)]
  exact hr

theorem growproc_total {n : Nat} (h : Inv ld m) (hp : m.proc i = some p) (hn : 0 < n)
    (hlt : p.sz + n < KERNBASE) (hfree : 2 * ((p.sz + n) / PGSIZE + 1) ≤ m.phys.freelist.length) :
    ∃ d ph, allocuvm ld p.pgdir p.sz (p.sz + n) m.phys = .ok ((d, p.sz + n), ph) ∧
      growproc ld i p n m =
        .ok (true, { m.setProc i (some { p with pgdir := d, sz := p.sz + n }) with phys := ph }) ∧
      m.phys.freelist.length ≤ ph.freelist.length + 2 * ((p.sz + n) / PGSIZE + 1) := by
  have hwf := h.wf i p hp
  obtain ⟨d, ph, ha, hlen⟩ := allocuvm_total ld p.pgdir hlt
    (Nat.le_add_right _ _) (fun b h1 h2 => by
      by_contra hc
      have hb : b < KERNBASE := by simp only [KERNBASE, PGSIZE] at *; omega
      have := hwf.below b hb (by simpa using hc)
      rw [pgroundup_of_le (Nat.le_of_lt hwf.sz_lt)] at h1
      simp only [PGSIZE] at *
      omega) hfree
  have hadd : addInt p.sz n = p.sz + n := by
    simp only [addInt, KERNBASE] at *
    omega
  refine ⟨d, ph, ha, ?_, hlen⟩
  unfold growproc
  rw [if_pos (by exact_mod_cast hn), hadd, bind_of_ok (onPhys_of_ok ha)]
  dsimp only
  rw [if_neg (by omega)]
  rfl

/-! ## `fork` -/

theorem copyLoop_total (pgdir : PgDir) {sz n a : Nat} (hsz : sz ≤ KERNBASE) (hal : a % PGSIZE = 0)
    (hn : sz ≤ a + n * PGSIZE)
    (hpres : ∀ b, a ≤ b → b < sz → (pgdir.get b).present = true)
    (habs : ∀ b, a ≤ b → b < sz → (d.get b).present = false) (hfree : n ≤ s.freelist.length) :
    ∃ pgdir' d' s', Vm.copyLoop sz n pgdir d a s = .ok ((pgdir', d', true), s') ∧
      s.freelist.length ≤ s'.freelist.length + n := by
  induction n generalizing pgdir d s a with
  | zero =>
    refine ⟨pgdir, d, s, ?_, Nat.le_refl _⟩
    unfold Vm.copyLoop
    rw [if_neg (by omega)]
    rfl
  | succ n ih =>
    by_cases ha : a < sz
    · have hp := hpres a (Nat.le_refl _) ha
      have htab := PgDir.hasTab_of_present hp
      obtain ⟨pte, hpte⟩ : ∃ pte, pte = (pgdir.get a).readOnly := ⟨_, rfl⟩
      have hget : (pgdir.set a { pgdir.get a with writable := false }).get a = pte := by
        rw [PgDir.get_set_self htab, hpte]
        rfl
      obtain ⟨d1, s1, hm, hlen1⟩ := map_total pte.ppn ⟨pte.writable, pte.user⟩
        (s := s) hal (by omega) (habs a (Nat.le_refl _) ha) (by omega)
      have hmap := ((map_user_shape hal (by omega) hm).2.2 rfl).2.2
      have hu : u32 (a + PGSIZE) = a + PGSIZE :=
        u32_of_lt (by simp only [KERNBASE, PGSIZE] at *; omega)
      have hlt : ∀ b, b < sz → b < 0x100000000 := fun b hb => by
        simp only [KERNBASE] at hsz
        omega
      have hnext : ∀ b, a + PGSIZE ≤ b → b / PGSIZE ≠ a / PGSIZE := fun b hb => by
        simp only [PGSIZE] at *
        omega
      obtain ⟨pgdir2, d2, s2, hr, hlen2⟩ := ih (d := d1)
        (pgdir.set a { pgdir.get a with writable := false })
        (s := s1.setRefc pte.ppn (s1.refc_cnt pte.ppn + 1)) (a := a + PGSIZE)
        (by simp only [PGSIZE] at *; omega) (by simp only [PGSIZE] at *; omega)
        (fun b h1 h2 => by
          rw [PgDir.get_set htab (hlt a ha) (hlt b h2), if_neg (hnext b h1)]
          exact hpres b (by omega) h2)
        (fun b h1 h2 => by
          rw [hmap b (hlt b h2), if_neg (hnext b h1)]
          exact habs b (by omega) h2)
        (by change n ≤ s1.freelist.length; omega)
      change s1.freelist.length ≤ _ at hlen2
      refine ⟨pgdir2, d2, s2, ?_, by omega⟩
      have hno := has_page hp
      unfold Vm.copyLoop
      rw [if_pos ha, if_neg fun hc => hno (.inl hc), if_neg (by simp [hp])]
      dsimp only
      rw [hget, bind_of_ok hm]
      dsimp only
      rw [if_pos rfl, hu]
      exact hr
    · refine ⟨pgdir, d, s, ?_, Nat.le_add_right _ _⟩
      unfold Vm.copyLoop
      rw [if_neg ha]
      rfl

theorem allocproc_of_ok {j : Fin NPROC} {kstack : Nat} {ph : Phys} (hu : m.unused = some j)
    (hk : kalloc m.phys = .ok (some kstack, ph)) :
    allocproc m = .ok (some (j, kstack), { m with phys := ph }) := by
  unfold allocproc
  rw [hu]
  dsimp only
  rw [bind_of_ok (onPhys_of_ok hk)]
  rfl

theorem fork_total {j : Fin NPROC} (h : Inv ld m) (hp : m.proc i = some p)
    (hpres : ∀ b < p.sz, (p.pgdir.get b).present = true) (hu : m.unused = some j)
    (hfree : 67 + p.sz / PGSIZE ≤ m.phys.freelist.length) :
    ∃ m', fork ld i p m = .ok (true, m') ∧
      m.phys.freelist.length ≤ m'.phys.freelist.length + (67 + p.sz / PGSIZE) := by
  have hwf := h.wf i p hp
  have hpos : 67 ≤ m.phys.freelist.length := Nat.le_trans (Nat.le_add_right _ _) hfree
  obtain ⟨kstack, ph1, hk, hlen1⟩ := kalloc_total (s := m.phys) (by omega)
  obtain ⟨d0, ph2, hs, hlen2⟩ := setupkvm_total ld (s := ph1) (by omega)
  obtain ⟨pgdir, d, ph3, hc, hlen3⟩ := copyLoop_total (s := ph2) (d := d0) p.pgdir
    (n := p.sz / PGSIZE + 1) (a := 0) (Nat.le_of_lt hwf.sz_lt) (by decide)
    (by simp only [PGSIZE]; omega) (fun b _ hb => hpres b hb)
    (fun b _ hb => by
      have hb' := Nat.lt_trans hb hwf.sz_lt
      rw [setupkvm_shape hs b (by simp only [KERNBASE] at hb'; omega), kernelPte_user hb']
      rfl) (by omega)
  have hcopy : copyuvm ld p.pgdir p.sz ph1 = .ok ((pgdir, some d), ph3) := by
    unfold copyuvm
    rw [bind_of_ok hs]
    dsimp only
    rw [bind_of_ok hc]
    rfl
  refine ⟨{ (m.setProc i (some { p with pgdir := pgdir })).setProc j (some (childOf p d kstack)) with
    phys := ph3 }, ?_, ?_⟩
  · unfold fork
    rw [bind_of_ok (allocproc_of_ok hu hk)]
    dsimp only
    rw [bind_of_ok (onPhys_of_ok hcopy)]
    rfl
  · dsimp only
    omega

theorem CoW_handler_total {va : Nat} (hp : (d.get va).present = true) (hfree : 0 < s.freelist.length) :
    ∃ d' s', CoW_handler d va s = .ok (some d', s') ∧ s.freelist.length ≤ s'.freelist.length + 1 := by
  by_cases hc : s.refc_cnt (d.get va).ppn ≤ 1
  · exact ⟨_, _, CoW_handler_alone hp hc, Nat.le_succ _⟩
  · obtain ⟨q, s1, hk, hlen⟩ := kalloc_total hfree
    exact ⟨_, _, CoW_handler_copy hp (by omega) hk, Nat.le_of_eq hlen⟩

theorem wait_total {j : Fin NPROC} (ha : Acct (Managed ld) m.phys (p.pgdir.kernRefs + own + one p.kstack)
      (p.pgdir.userRefs + sh)) :
    ∃ ph, wait ld j p m = .ok ((), { m.setProc j none with phys := ph }) ∧ Acct (Managed ld) ph own sh := by
  obtain ⟨ph1, h1⟩ := kfree_total (ha.inDom p.kstack (by simp)) m.phys
  have ha1 := (acct_kfree_own ha h1).1
  obtain ⟨ph2, h2⟩ := freevm_total (fun _ (hq : Managed ld _) => hq) ha1
  refine ⟨ph2, ?_, (acct_freevm ha1 h2).1⟩
  unfold wait
  rw [bind_of_ok (onPhys_of_ok h1), bind_of_ok (onPhys_of_ok (m := { m with phys := ph1 }) h2)]
  rfl

/-! ## Filling the memory of a process -/

/-- A process that can write to all its memory. -/
structure Writes (p : Proc) : Prop where
  live : p.zombie = false
  maps : ∀ a < p.sz, p.Maps a ∧ (p.pgdir.get a).writable = true
  inj : ∀ a < p.sz, ∀ b < p.sz, (p.pgdir.get a).ppn = (p.pgdir.get b).ppn → a / PGSIZE = b / PGSIZE

theorem writes_of_inv (h : Inv ld m) (hp : m.proc i = some p) (hz : p.zombie = false)
    (hmaps : ∀ a < p.sz, p.Maps a ∧ (p.pgdir.get a).writable = true) : Writes p where
  live := hz
  maps := hmaps
  inj a ha b hb heq := by
    by_contra hne
    have hlt := (h.wf i p hp).sz_lt
    obtain ⟨⟨-, hpa, -⟩, hwa⟩ := hmaps a ha
    obtain ⟨⟨-, hpb, -⟩, -⟩ := hmaps b hb
    have htwo := PgDir.two_le_userRefs hpa (by omega) hpb (by omega) heq.symm hne
    have hone := h.excl i p hp a (by omega) hpa hwa
    rw [shared_eq m i, hp, userOf] at hone
    omega

theorem store_next (ld : Linker) {a : Nat} (b : UInt8) (hp : m.proc i = some p) (ho : Writes p)
    (ha : a < p.sz) :
    next ld m (.store i a b) = some { m with phys := Phys.setByte m.phys p.pgdir a b } := by
  obtain ⟨hmaps, hw⟩ := ho.maps a ha
  simp only [next, Machine.by, hp, ho.live, Bool.false_eq_true, if_false, hmaps, if_true, store, hw]
  rfl

theorem byte_setByte {a b : Nat} (v : UInt8) (ho : Writes p) (ha : a < p.sz) (hb : b < p.sz) :
    Phys.byte (Phys.setByte s p.pgdir a v) p.pgdir b =
      if b = a then v else Phys.byte s p.pgdir b := by
  unfold Phys.byte Phys.setByte Phys.setMem
  dsimp only
  by_cases hpg : (p.pgdir.get b).ppn = (p.pgdir.get a).ppn
  · have hpage := ho.inj b hb a ha hpg
    rw [hpg, update_self]
    by_cases hab : b = a
    · rw [hab, update_self, if_pos rfl]
    · rw [if_neg hab, update_of_ne]
      simp only [PGSIZE] at *
      omega
  · rw [update_of_ne hpg, if_neg]
    rintro rfl
    exact hpg rfl

/-- The program that writes `f a` to every address `a` below `n`. -/
def storeActs (i : Fin NPROC) (f : Nat → UInt8) (n : Nat) : List Act :=
  (List.range n).map fun a => .store i a (f a)

theorem follow_stores {n : Nat} (f : Nat → UInt8) (h : Inv ld m) (hp : m.proc i = some p)
    (ho : Writes p) (hn : n ≤ p.sz) :
    ∃ ph, follow (next ld) m (storeActs i f n) = some { m with phys := ph } ∧
      Inv ld { m with phys := ph } ∧ (∃ mem, ph = { m.phys with mem := mem }) ∧
      ∀ a < p.sz, Phys.byte ph p.pgdir a = if a < n then f a else Phys.byte m.phys p.pgdir a := by
  induction n with
  | zero => exact ⟨m.phys, rfl, h, ⟨m.phys.mem, rfl⟩, fun a _ => by simp⟩
  | succ n ih =>
    obtain ⟨ph, hf, hinv, ⟨mem, hmem⟩, hbyte⟩ := ih (by omega)
    refine ⟨Phys.setByte ph p.pgdir n (f n), ?_, ?_, ⟨_, by rw [hmem]; rfl⟩, fun a ha => ?_⟩
    · rw [storeActs, range_succ, map_append, follow_append]
      change (follow (next ld) m (storeActs i f n)).bind _ = _
      rw [hf]
      simp only [Option.bind_some, map_singleton, follow]
      rw [store_next ld (f n) (m := { m with phys := ph }) hp ho (by omega)]
      rfl
    · exact inv_setByte (m := { m with phys := ph }) hinv ⟨i, p, hp⟩
    · rw [byte_setByte _ ho (by omega) ha, hbyte a ha]
      by_cases hc : a = n
      · subst hc
        simp
      · rw [if_neg hc]
        have : (a < n) ↔ (a < n + 1) := by omega
        simp only [this]

/-! ## The first process grows -/

/-- A small kernel. -/
def demoLinker : Linker := smallKernel

theorem grow_one_page {n : Nat} (h : Inv ld m) (hp : m.proc i = some p) (hsz : p.sz = PGSIZE) (hn : 0 < n)
    (hlt : n ≤ 0x4000000) (hfree : 2 * ((PGSIZE + n) / PGSIZE + 1) ≤ m.phys.freelist.length) :
    ∃ d ph, growproc ld i p n m =
        .ok (true, { m.setProc i (some { p with pgdir := d, sz := PGSIZE + n }) with phys := ph }) ∧
      m.phys.freelist.length ≤ ph.freelist.length + 2 * ((PGSIZE + n) / PGSIZE + 1) ∧
      (∀ a < PGSIZE, d.get a = p.pgdir.get 0) ∧
      ∀ a, PGSIZE ≤ a → a < PGSIZE + n → ∃ q, d.get a = userPerm.pte q ∧ ph.mem q = fun _ => 0 := by
  obtain ⟨d, ph, hal, hg, hlen⟩ := growproc_total h hp hn
    (by rw [hsz]; simp only [PGSIZE, KERNBASE]; omega) (by rw [hsz]; exact hfree)
  obtain ⟨-, ⟨hc, -⟩ | ⟨-, -, hgrown, -⟩⟩ :=
    allocuvm_ok (h.frame hp) hal (by rw [hsz]; simp only [PGSIZE]; omega)
  · omega
  have hround : pgroundup p.sz = PGSIZE := by
    rw [hsz]
    decide
  rw [hround, hsz] at hgrown
  rw [hsz] at hg hlen
  refine ⟨d, ph, hg, hlen, fun a ha => ?_, fun a h1 h2 => ?_⟩
  · rw [hgrown.out a (by simp only [PGSIZE] at ha; omega) (.inl ha), ← PgDir.get_page p.pgdir a,
      show a / PGSIZE = 0 from Nat.div_eq_of_lt ha]
    rfl
  · exact (hgrown.new a h1 (by simp only [PGSIZE] at *; omega)).2.2

theorem first_process {c : Nat} (hcpu : c ≤ 8) :
    ∃ m0 m d kstack, boot demoLinker c (fun _ _ => 0) = .ok m0 ∧
      next demoLinker m0 (.userinit []) = some m ∧ Inv demoLinker m ∧ 0xdbbc ≤ m.phys.freelist.length ∧
      m.proc initproc = some (firstProc d kstack) ∧ (∀ k, k ≠ initproc → m.proc k = none) ∧
      (d.get 0).present = true ∧ (d.get 0).writable = true ∧ (d.get 0).user = true := by
  obtain ⟨m0, hboot, hfree0⟩ := boot_total demoLinker (fun _ _ => 0)
    (Nat.le_trans (Nat.add_le_add_left hcpu _) (by decide))
  have hnone := (boot_ok hboot).2.1
  obtain ⟨m1, d1, kstack, hu, hp1, hother, hpr, hw, hus, hfree1⟩ :=
    userinit_total demoLinker hnone (by omega) (by decide : ([] : List UInt8).length < PGSIZE)
  refine ⟨m0, m1, d1, kstack, hboot, ?_, inv_userinit (inv_boot hboot) hnone hu, by omega, hp1, hother, hpr,
    hw, hus⟩
  rw [next, if_pos fun i => by rw [hnone]; rfl, hu]
  rfl

theorem first_growth {c n : Nat} (hcpu : c ≤ 8) (hn : 0 < n) (hlt : n ≤ 0x4000000) :
    ∃ m0 m p, boot demoLinker c (fun _ _ => 0) = .ok m0 ∧
      follow (next demoLinker) m0 [.userinit [], .growproc initproc n] = some m ∧
      Inv demoLinker m ∧ 71 ≤ m.phys.freelist.length ∧ m.proc initproc = some p ∧
      (∀ k, k ≠ initproc → m.proc k = none) ∧ p.zombie = false ∧ p.sz = PGSIZE + n ∧
      (∀ a < p.sz, p.Maps a ∧ (p.pgdir.get a).writable = true) ∧
      ∀ a, PGSIZE ≤ a → a < p.sz → Phys.byte m.phys p.pgdir a = 0 := by
  obtain ⟨m0, m1, d1, kstack, hboot, h0, hinv1, hfree1, hp1, hother, hpr, hw, hus⟩ := first_process hcpu
  obtain ⟨d2, ph, hg, hfree2, hout, hnew⟩ := grow_one_page hinv1 hp1 rfl hn hlt
    (by simp only [PGSIZE]; omega)
  refine ⟨m0, _, { firstProc d1 kstack with pgdir := d2, sz := PGSIZE + n }, hboot, ?_,
    inv_growproc hinv1 hp1 hg, ?_, ?_, ?_, rfl, rfl, ?_, ?_⟩
  · have h1 := by_of_ok (f := fun p => do let _ ← growproc demoLinker initproc p n) hp1 rfl
      (discard_of_ok hg)
    rw [follow, h0, Option.bind_some, follow, next, h1]
    rfl
  · change 71 ≤ ph.freelist.length
    simp only [PGSIZE] at hfree2
    omega
  · exact update_self initproc _ m1.proc
  · intro k hk
    exact (update_of_ne hk _ _).trans (hother k hk)
  · intro a ha
    change a < PGSIZE + n at ha
    change (a < PGSIZE + n ∧ (d2.get a).present = true ∧ (d2.get a).user = true) ∧
      (d2.get a).writable = true
    by_cases hap : a < PGSIZE
    · rw [hout a hap]
      exact ⟨⟨ha, hpr, hus⟩, hw⟩
    · obtain ⟨q, hq, -⟩ := hnew a (by omega) ha
      rw [hq]
      exact ⟨⟨ha, rfl, rfl⟩, rfl⟩
  · intro a h1 h2
    obtain ⟨q, hq, hzero⟩ := hnew a h1 h2
    change ph.mem (d2.get a).ppn _ = 0
    rw [hq]
    change ph.mem q _ = 0
    rw [hzero]

theorem meets_growth {n : Nat} {tr : List (Machine × Act)}
    (htr : tr.map Prod.snd = [.userinit [], .growproc initproc n]) : Meets ShortArgs tr := by
  refine meets_of_labels htr fun a ha m => ?_
  rcases mem_pair.mp ha with rfl | rfl <;> trivial

theorem growth_run {n : Nat} (hn : 0 < n) (hlt : n ≤ 0x4000000) :
    ∃ m0 tr m p, boot demoLinker 1 (fun _ _ => 0) = .ok m0 ∧ Path (Next (next demoLinker)) m0 tr m ∧
      tr.length = 2 ∧ Meets ShortArgs tr ∧ m.proc initproc = some p ∧ p.sz = PGSIZE + n ∧
      (∀ a < p.sz, p.Maps a) ∧ m.phys.freelist ≠ [] := by
  obtain ⟨m0, m, p, hboot, hf, -, hfree, hp, -, -, hsz, hmaps, -⟩ := first_growth (c := 1) (by decide) hn hlt
  obtain ⟨tr, hrun, htr⟩ := path_of_follow hf
  refine ⟨m0, tr, m, p, hboot, hrun, by rw [← length_map, htr]; rfl, meets_growth htr, hp, hsz,
    fun a ha => (hmaps a ha).1, ?_⟩
  intro hc
  rw [hc] at hfree
  simp at hfree

end Xv6.Sys
