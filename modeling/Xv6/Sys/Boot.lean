import Xv6.Sys.Fork

/-!
# From power-on to the first process

`kinit1` and `kinit2` put the pages on the free list, with a page table and the stacks of the other
CPUs taken in between. Then `userinit` makes the first process.
-/

open Xv6.Cmd Xv6.Pool Xv6.Vm List

namespace Xv6.Sys

variable {ld : Linker} {dom : Nat → Prop} {s s' : Phys} {own sh : Nat → Nat} {m m' : Machine}

/-! ## `freerange` -/

theorem freerange_cons {p : Nat} {ps : List Nat} (hp : Managed ld p) (s : Phys) :
    freerange ld (p :: ps) s = freerange ld ps ((s.setRefc p 0).push p) := by
  have hk : kfree ld p (s.setRefc p 0) = .ok ((), (s.setRefc p 0).push p) := by
    rw [kfree_of_managed hp]
    simp [Phys.setRefc]
  have h0 : (fun s => .ok ((), s.setRefc p 0) : K Unit) s = .ok ((), s.setRefc p 0) := rfl
  rw [freerange, bind_of_ok h0, bind_of_ok hk]

theorem acct_freerange (ld : Linker) {ps : List Nat} (hps : ∀ p ∈ ps, Managed ld p) (hnew : ∀ p ∈ ps, ¬ dom p)
    (hnd : ps.Nodup) (ha : Acct dom s own sh) :
    ∃ s', freerange ld ps s = .ok ((), s') ∧ Acct (fun q => dom q ∨ q ∈ ps) s' own sh ∧
      s'.freelist.length = s.freelist.length + ps.length := by
  induction ps generalizing s dom with
  | nil => exact ⟨s, rfl, ha.of_dom (by simp), rfl⟩
  | cons p ps ih =>
    obtain ⟨hp, hnd⟩ := nodup_cons.mp hnd
    rw [freerange_cons (hps p (by simp))]
    have ha1 : Acct (fun q => dom q ∨ q = p) ((s.setRefc p 0).push p) own sh :=
      Holds.add ha (hnew p (by simp))
    obtain ⟨s2, hs2, ha2, hlen⟩ := ih (fun q hq => hps q (by simp [hq]))
      (fun q hq => by
        rintro (hd | rfl)
        · exact hnew q (by simp [hq]) hd
        · exact hp hq) hnd ha1
    refine ⟨s2, hs2, ha2.of_dom fun q => by simp [or_assoc], ?_⟩
    rw [hlen]
    simp only [Phys.push, Phys.setRefc, Phys.setMem, length_cons]
    omega

/-! ## `main` -/

/-- A page that `kinit1` frees. -/
def Low (ld : Linker) (p : Nat) : Prop := Managed ld p ∧ p < 0x400

theorem mem_low (ld : Linker) (p : Nat) :
    p ∈ List.range' (firstPage ld) (0x400 - firstPage ld) ↔ Low ld p := by
  have h1 := ld.text_lt
  have h2 := ld.data_le
  rw [mem_range'_1, Low, Managed, firstPage]
  simp only [KERNLINK, KERNBASE, PHYSTOP, PGSIZE] at *
  omega

theorem mem_high (hend : ld.endAddr ≤ KERNBASE + 0x400000) (p : Nat) :
    p ∈ List.range' 0x400 (PHYSTOP / PGSIZE - 0x400) ↔ Managed ld p ∧ 0x400 ≤ p := by
  rw [mem_range'_1, Managed]
  simp only [KERNBASE, PHYSTOP, PGSIZE] at *
  omega

theorem acct_kinit1 (ld : Linker) (mem : Nat → Page) :
    ∃ s, kinit1 ld (powerOn mem) = .ok ((), s) ∧ Acct (Low ld) s 0 0 ∧
      s.freelist.length = 0x400 - firstPage ld := by
  have h0 : Acct (fun _ => False) (powerOn mem) 0 0 :=
    ⟨by simp, by simp, by simp, by simp, by simp [powerOn], by simp [powerOn]⟩
  obtain ⟨s, hs, ha, hlen⟩ := acct_freerange ld
    (fun p (hp : p ∈ List.range' (firstPage ld) (0x400 - firstPage ld)) => ((mem_low ld p).mp hp).1)
    (by simp) nodup_range' h0
  exact ⟨s, hs, ha.of_dom fun q => by rw [mem_low, false_or], by simpa [powerOn] using hlen⟩

theorem acct_kinit2 (hend : ld.endAddr ≤ KERNBASE + 0x400000) (ha : Acct (Low ld) s own sh) :
    ∃ s', kinit2 ld s = .ok ((), s') ∧ Acct (Managed ld) s' own sh ∧
      s'.freelist.length = s.freelist.length + 0xdc00 := by
  obtain ⟨s', hs, ha', hlen⟩ := acct_freerange ld
    (fun p (hp : p ∈ List.range' 0x400 (PHYSTOP / PGSIZE - 0x400)) => ((mem_high hend p).mp hp).1)
    (fun p hp hlow => by
      have := ((mem_high hend p).mp hp).2
      have := hlow.2
      omega) nodup_range' ha
  refine ⟨s', hs, ha'.of_dom fun q => ?_, by rw [hlen, length_range', PHYSTOP, PGSIZE]⟩
  rw [mem_high hend, Low]
  constructor
  · intro hq
    by_cases h : q < 0x400
    · exact .inl ⟨hq, h⟩
    · exact .inr ⟨hq, by omega⟩
  · rintro (h | h) <;> exact h.1

theorem end_le_of_firstPage (h : 0 < 0x400 - firstPage ld) : ld.endAddr ≤ KERNBASE + 0x400000 := by
  simp only [firstPage, KERNBASE, PGSIZE] at *
  omega

theorem setupkvm_takes {d : PgDir} (h : setupkvm ld s = .ok (some d, s')) : 0 < s.freelist.length := by
  rcases setupkvm_cases h with ⟨hc, -⟩ | ⟨p, s1, d1, ok, s2, hk, -⟩
  · cases hc
  · rcases kalloc_cases hk with ⟨hc, -⟩ | ⟨q, rest, -, hf, -⟩
    · cases hc
    · rw [hf]
      exact Nat.succ_pos _

theorem acct_startothers {n : Nat} {l : List Nat} (ha : Acct dom s own sh)
    (h : startothers n s = .ok (l, s')) : Acct dom s' (own + fun q => l.count q) sh := by
  induction n generalizing s own l with
  | zero =>
    obtain ⟨rfl, rfl⟩ := Prod.mk.inj (pure_ok h)
    exact ha.congr (by simp) fun _ => rfl
  | succ n ih =>
    obtain ⟨r, s1, hk, h⟩ := bind_ok h
    cases r with
    | none => exact (throw_ok h).elim
    | some stack =>
      obtain ⟨rest, s2, hr, h⟩ := bind_ok h
      obtain ⟨rfl, rfl⟩ := Prod.mk.inj (pure_ok h)
      refine (ih (acct_kalloc ha hk).2.2.2 hr).congr (fun q => ?_) fun _ => rfl
      by_cases hq : q = stack
      · subst hq
        simp only [Pi.add_apply, count_cons_self, one_self]
        omega
      · simp only [Pi.add_apply, count_cons_of_ne (Ne.symm hq), one_of_ne hq]
        omega

theorem kvmalloc_ok {d : PgDir} (h : kvmalloc ld s = .ok (d, s')) :
    setupkvm ld s = .ok (some d, s') := by
  obtain ⟨r, s1, hs, h⟩ := bind_ok h
  cases r with
  | none => exact (throw_ok h).elim
  | some d' =>
    obtain ⟨rfl, rfl⟩ := Prod.mk.inj (pure_ok h)
    exact hs

theorem bootMain_ok {ncpu : Nat} {r : PgDir × List Nat} (h : bootMain ld ncpu s = .ok (r, s')) :
    ∃ s1 s2 s3, kinit1 ld s = .ok ((), s1) ∧ setupkvm ld s1 = .ok (some r.1, s2) ∧
      startothers (ncpu - 1) s2 = .ok (r.2, s3) ∧ kinit2 ld s3 = .ok ((), s') := by
  unfold bootMain at h
  obtain ⟨_, s1, h1, h⟩ := bind_ok h
  obtain ⟨d, s2, h2, h⟩ := bind_ok h
  obtain ⟨l, s3, h3, h⟩ := bind_ok h
  obtain ⟨_, s4, h4, h⟩ := bind_ok h
  obtain ⟨rfl, rfl⟩ := Prod.mk.inj (pure_ok h)
  exact ⟨s1, s2, s3, h1, kvmalloc_ok h2, h3, h4⟩

theorem boot_ok {ncpu : Nat} {mem : Nat → Page} (h : boot ld ncpu mem = .ok m) :
    bootMain ld ncpu (powerOn mem) = .ok ((m.kpgdir, m.apstacks), m.phys) ∧
    (∀ i, m.proc i = none) ∧ m.pipes = [] := by
  obtain ⟨r, hr, rfl⟩ := map_ok h
  exact ⟨hr, fun _ => rfl, rfl⟩

theorem inv_boot {ncpu : Nat} {mem : Nat → Page} (h : boot ld ncpu mem = .ok m) : Inv ld m := by
  obtain ⟨hmain, hproc, hpipes⟩ := boot_ok h
  obtain ⟨s1, s2, s3, h1, h2, h3, h4⟩ := bootMain_ok hmain
  obtain ⟨s1', h1', ha1, hlen1⟩ := acct_kinit1 ld mem
  obtain ⟨-, rfl⟩ := Prod.mk.inj (Except.ok.inj (h1.symm.trans h1'))
  have hend : ld.endAddr ≤ KERNBASE + 0x400000 := end_le_of_firstPage (by
    rw [← hlen1]
    exact setupkvm_takes h2)
  have ha3 := acct_startothers (acct_setupkvm ha1 h2).1 h3
  obtain ⟨s4, h4', ha4, hlen⟩ := acct_kinit2 hend ha3
  obtain ⟨-, rfl⟩ := Prod.mk.inj (Except.ok.inj (h4.symm.trans h4'))
  refine ⟨ha4.congr (fun q => ?_) fun q => ?_, ?_, ?_, .inr (by omega)⟩
  · simp [Machine.own, hproc, hpipes, kernOf]
  · simp [Machine.shared, hproc, userOf]
  · intro i p hp
    rw [hproc] at hp
    cases hp
  · intro i p hp
    rw [hproc] at hp
    cases hp

/-! ## `userinit` -/

theorem setupkvm_userRefs {d : PgDir} (h : setupkvm ld s = .ok (some d, s')) (q : Nat) : d.userRefs q = 0 :=
  PgDir.userRefs_eq_zero (fun va hva => by
    rw [setupkvm_shape h va (by simp only [KERNBASE] at hva; omega), kernelPte_user hva]
    rfl) q

theorem inituvm_cases {d d' : PgDir} {init : List UInt8} (h : inituvm d init s = .ok (d', s')) :
    ∃ q s1 ok s2, kalloc s = .ok (some q, s1) ∧
      mappages d 0 PGSIZE (q * PGSIZE) userPerm (s1.setMem q fun _ => 0) = .ok ((d', ok), s2) ∧
      s' = s2.setMem q fun i => init.getD i 0 := by
  unfold inituvm at h
  split at h
  · exact (throw_ok h).elim
  · obtain ⟨r, s1, hk, h⟩ := bind_ok h
    cases r with
    | none => exact (throw_ok h).elim
    | some q =>
      obtain ⟨_, s2, hset, h⟩ := bind_ok h
      obtain ⟨-, rfl⟩ := Prod.mk.inj (Except.ok.inj hset)
      obtain ⟨⟨d1, ok⟩, s3, hm, h⟩ := bind_ok h
      obtain ⟨_, s4, hw, h⟩ := bind_ok h
      obtain ⟨-, rfl⟩ := Prod.mk.inj (Except.ok.inj hw)
      obtain ⟨rfl, rfl⟩ := Prod.mk.inj (pure_ok h)
      exact ⟨q, s1, ok, s3, hk, hm, rfl⟩

/-- The first process. -/
def firstProc (d : PgDir) (kstack : Nat) : Proc :=
  { sz := PGSIZE, pgdir := d, kstack := kstack, zombie := false }

theorem userinit_cases {init : List UInt8} {u : Unit} (h : userinit ld init m = .ok (u, m')) :
    ∃ j kstack ph1 d ph2 d' ph3, m.proc j = none ∧ kalloc m.phys = .ok (some kstack, ph1) ∧
      setupkvm ld ph1 = .ok (some d, ph2) ∧ inituvm d init ph2 = .ok (d', ph3) ∧
      m' = { m.setProc j (some (firstProc d' kstack)) with phys := ph3 } := by
  unfold userinit at h
  obtain ⟨r, m1, ha, hrest⟩ := bind_ok h
  rcases allocproc_cases ha with ⟨rfl, rfl⟩ | ⟨ph, hk, rfl, rfl⟩ | ⟨j, kstack, ph1, hj, hk, rfl, rfl⟩
  · exact (throw_ok hrest).elim
  · exact (throw_ok hrest).elim
  · obtain ⟨r, ph2, hs, h⟩ := bind_onPhys hrest
    cases r with
    | none => exact (throw_ok h).elim
    | some d =>
      obtain ⟨d', ph3, hi, h⟩ := bind_onPhys h
      exact ⟨j, kstack, ph1, d, ph2, d', ph3, unused_none hj, hk, hs, hi, setProc_ok h⟩

theorem kalloc_length {q : Nat} (h : kalloc s = .ok (some q, s')) :
    s.freelist.length = s'.freelist.length + 1 := by
  rcases kalloc_cases h with ⟨hc, -⟩ | ⟨p, rest, -, hf, rfl⟩
  · cases hc
  · rw [hf]
    rfl

theorem inituvm_mapped {d d' : PgDir} {q : Nat} {ok : Bool} (hfree : 0 < s.freelist.length)
    (h : mappages d 0 PGSIZE (q * PGSIZE) userPerm s = .ok ((d', ok), s')) : ok = true := by
  obtain ⟨d1, hw, -⟩ := mappages_one (by decide) (by decide) h
  have hmiss : missing {pdx 0} d ≤ s.freelist.length := by
    refine Nat.le_trans (Finset.card_filter_le _ _) ?_
    rw [Finset.card_singleton]
    exact hfree
  obtain ⟨d2, s2, hw', -⟩ := walkpgdir_total (Finset.mem_singleton_self _) hmiss
  have heq := Except.ok.inj (hw.symm.trans hw')
  exact (Prod.mk.inj (Prod.mk.inj heq).1).2

/-- `boot` leaves enough pages for the first process, so its code page is mapped. -/
theorem userinit_mapped {q kstack : Nat} {d d' : PgDir} {ok : Bool} {ph1 ph2 s1 : Phys} (h : Inv ld m)
    (hnone : ∀ i, m.proc i = none) (hk : kalloc m.phys = .ok (some kstack, ph1))
    (hs : setupkvm ld ph1 = .ok (some d, ph2)) (hq : kalloc ph2 = .ok (some q, s1))
    (hm : mappages d 0 PGSIZE (q * PGSIZE) userPerm (s1.setMem q fun _ => 0) = .ok ((d', ok), s')) :
    ok = true := by
  have hfree : 68 ≤ m.phys.freelist.length := by
    rcases h.start with ⟨i, p, hp⟩ | hf
    · rw [hnone] at hp
      cases hp
    · exact hf
  have hlen1 := kalloc_length hk
  obtain ⟨d0, ph2', hs', hlen2⟩ := setupkvm_total ld (s := ph1) (by omega)
  obtain ⟨-, rfl⟩ := Prod.mk.inj (Except.ok.inj (hs.symm.trans hs'))
  have hlen3 := kalloc_length hq
  exact inituvm_mapped (by change 0 < s1.freelist.length; omega) hm

theorem inv_userinit {init : List UInt8} {u : Unit} (h : Inv ld m) (hnone : ∀ i, m.proc i = none)
    (hu : userinit ld init m = .ok (u, m')) : Inv ld m' := by
  obtain ⟨j, kstack, ph1, d, ph2, d', ph3, hj, hk, hs, hi, rfl⟩ := userinit_cases hu
  obtain ⟨q, s1, ok, s2, hq, hm, rfl⟩ := inituvm_cases hi
  obtain rfl := userinit_mapped h hnone hk hs hq hm
  have hacct : Acct (Managed ld) m.phys (m.ownRest j) (m.sharedRest j) :=
    h.acct.congr (ownRest_of_none hj) (sharedRest_of_none hj)
  obtain ⟨ha2, -⟩ := acct_setupkvm (acct_kalloc hacct hk).2.2.2 hs
  obtain ⟨-, hq0, -, -⟩ := acct_kalloc ha2 hq
  obtain ⟨ha3, -, hrefs, -⟩ := acct_page (by decide) (by decide) ha2 hq hm
  obtain ⟨-, -, hget⟩ := map_user_shape (by decide) (by decide) hm
  have hzero := setupkvm_userRefs hs
  have huser : ∀ va < KERNBASE, (d'.get va).present = true →
      va / PGSIZE = 0 ∧ (d'.get va).ppn = q := by
    intro va hva hpr
    have hva' : va < 0x100000000 := by simp only [KERNBASE] at hva; omega
    rw [(hget rfl).2.2 va hva', setupkvm_shape hs va hva', kernelPte_user hva] at hpr ⊢
    split at hpr
    · next h0 => exact ⟨by simpa using h0, by rw [if_pos h0]; rfl⟩
    · cases hpr
  simp only [Pi.add_apply] at hq0
  refine inv_setProc h ?_ ?_ ⟨?_, ?_⟩ (started_setProc _ _ _)
  · refine acct_setMem (ha3.congr (fun r => ?_) fun r => ?_) _
    · simp only [kernOf, firstProc, Pi.add_apply]
      omega
    · simp only [userOf, firstProc, Pi.add_apply]
      omega
  · rintro p' hp'
    obtain rfl := Option.some.inj hp'
    refine ⟨(by decide : PGSIZE < KERNBASE), fun va h1 h2 => ?_, fun va hva hpr => ?_⟩
    · change d'.get va = _
      rw [(hget rfl).2.2 va h1, if_neg, setupkvm_shape hs va h1]
      simp only [KERNBASE, PGSIZE] at *
      omega
    · rw [(huser va hva hpr).1]
      exact (by decide : 0 * PGSIZE < PGSIZE)
  · intro r hr _
    rw [userOf, firstProc]
    have hrq : r ≠ q := by
      rintro rfl
      omega
    rw [hrefs, hzero, one_of_ne hrq]
  · rintro p' hp' va hva hpr -
    obtain rfl := Option.some.inj hp'
    change m.sharedRest j (d'.get va).ppn + d'.userRefs (d'.get va).ppn = 1
    rw [(huser va hva hpr).2, hrefs, hzero, one_self]
    omega

end Xv6.Sys
