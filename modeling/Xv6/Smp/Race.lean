import Xv6.Smp.Steps
import Xv6.Sys.Total

/-!
# Two sharers fault at once

After a `fork`, parent and child share their pages with a count of 2. When both fault on one of
them and both have called `get_refc` before either calls `decr_refc`, both copy the page, and it
is lost.
-/

open Xv6.Cmd Xv6.Pool Xv6.Run Xv6.Sys Xv6.Vm Function List

namespace Xv6.Smp

variable {ld : Linker} {s s' : Cpus} {i j : Fin NPROC} {p : Proc} {m m' : Machine} {va : Nat}

/-- In every run of faults, shrinking and `wait`s on a machine that a run from `boot` has reached,
the accounting holds at every quiet moment as long as each `decr_refc` of `CoW_handler` leaves a
reference. A run that ends quiet after another `decr_refc` breaks it. -/
theorem no_page_lost_iff {ncpu : Nat} {mem : Nat → Page} {m0 : Machine}
    {tr0 : List (Machine × Act)} {tr : List (Cpus × Lbl)} (hboot : boot ld ncpu mem = .ok m0)
    (hrun0 : Path (Next (Sys.next ld)) m0 tr0 m) (hshort : Meets ShortArgs tr0)
    (hrun : Path (Next (next ld)) ⟨m, fun _ => .idle⟩ tr s) (hu : Meets UserFault tr) :
    (Meets DecrOk tr → Along (fun s => Quiet s → Accounting ld s.m) tr s) ∧
    (Quiet s → Accounting ld s.m → Meets DecrOk tr) := by
  have h0 := inv_start (inv_along hboot hrun0 hshort).2
  exact ⟨accounting_of_decrOk h0 hrun hu, decrOk_of_accounting h0 hrun hu⟩

/-! ## Sharers -/

/-- Two processes that hold the same page at `va`, and nobody else does. -/
structure Sharers (m : Machine) (i j : Fin NPROC) (va : Nat) (p c : Proc) : Prop where
  ne : j ≠ i
  fst : m.proc i = some p
  snd : m.proc j = some c
  live : p.zombie = false ∧ c.zombie = false
  present : (p.pgdir.get va).present = true ∧ (c.pgdir.get va).present = true
  same : (c.pgdir.get va).ppn = (p.pgdir.get va).ppn
  two : m.phys.refc_cnt (p.pgdir.get va).ppn = 2

theorem Sharers.in_use {c : Proc} (hs : Sharers m i j va p c) (h : Sys.Inv ld m)
    (hva : va < KERNBASE) :
    Managed ld (p.pgdir.get va).ppn ∧ (p.pgdir.get va).ppn ∉ m.phys.freelist := by
  have hpos : 0 < m.shared (p.pgdir.get va).ppn := by
    have hle := present_userOf hs.fst hva hs.present.1
    rw [Sys.shared_eq m i]
    omega
  refine ⟨h.acct.inDom _ (by omega), fun hc => ?_⟩
  have := ((h.acct.mem _).mp hc).2
  omega

theorem fork_sharers (h : Sys.Inv ld m) (hp : m.proc i = some p) (hz : p.zombie = false)
    (hva : va < p.sz) (hpr : (p.pgdir.get va).present = true)
    (hw : (p.pgdir.get va).writable = true) (hf : fork ld i p m = .ok (true, m')) :
    ∃ j p' c, Sharers m' i j va p' c := by
  have hinv := inv_fork h hp hf
  have hwf := h.wf i p hp
  have hvk : va < KERNBASE := Nat.lt_trans hva hwf.sz_lt
  rcases fork_cases hf with ⟨hc, -⟩ | ⟨ph, -, hc, -⟩ |
    ⟨j, kstack, ph1, pgdir, d, ph2, hj, hk, hcopy, ⟨-, hc, -⟩ | ⟨c, rfl, -, rfl⟩⟩
  · cases hc
  · cases hc
  · cases hc
  have hjn := unused_none hj
  have hji : j ≠ i := by
    rintro rfl
    rw [hp] at hjn
    cases hjn
  have hshape := (copyuvm_shape (Nat.le_of_lt hwf.sz_lt) hcopy).2 va hvk
  rw [if_pos (by simp only [PGSIZE]; omega)] at hshape
  obtain ⟨-, hc, hpg⟩ := hshape
  have hppn : (c.get va).ppn = (p.pgdir.get va).ppn := by rw [hc]; rfl
  have hcpr : (c.get va).present = true := by rw [hc]; exact hpr
  refine ⟨j, { p with pgdir := pgdir }, childOf p c kstack, hji, ?_, ?_, ⟨hz, rfl⟩, ⟨?_, hcpr⟩, ?_, ?_⟩
  · simp [Machine.setProc, update_of_ne (Ne.symm hji)]
  · simp [Machine.setProc]
  · rw [hpg]
    exact hpr
  · rw [hpg]
    exact hppn
  · -- The page had one holder, and the child is the second.
    obtain ⟨q, hq⟩ : ∃ q, q = (p.pgdir.get va).ppn := ⟨_, rfl⟩
    have hq' : (pgdir.get va).ppn = q := by rw [hpg, hq]; rfl
    have hone := h.excl i p hp va hvk hpr hw
    rw [← hq, Sys.shared_eq m i, hp, userOf] at hone
    have hle := fork_child_refs hwf hcopy q
    have hpos := PgDir.userRefs_pos hcpr hvk
    rw [hppn, ← hq] at hpos
    have hdem := (acct_copyuvm (Nat.le_of_lt hwf.sz_lt) (acct_kalloc (h.frame hp) hk).2.2.2 hcopy).2.2
    have hshared : ((m.setProc i (some { p with pgdir := pgdir })).setProc j
        (some (childOf p c kstack))).shared q = 2 := by
      rw [shared_fork hji hjn hdem.user]
      simp only [childOf]
      omega
    dsimp only
    rw [hq']
    refine (hinv.count_of_shared (Nat.lt_of_lt_of_eq (by decide : 0 < 2) hshared.symm)).trans ?_
    exact congrArg Nat.cast hshared

/-! ## Copying a page -/

theorem next_step {t : Job} (hp : s.m.proc i = some p) (hj : s.job i = t) :
    next ld s (.step i) = stepJob ld s i p t := by
  rw [next, hp, Option.bind_some, hj]

theorem enter_run (ld : Linker) (va : Nat) (hp : s.m.proc i = some p) (hz : p.zombie = false)
    (hj : s.job i = .idle) (hpr : (p.pgdir.get va).present = true) (hc : 1 < s.m.phys.refc_cnt (p.pgdir.get va).ppn) :
    ∃ s' tr, Path (Next (next ld)) s tr s' ∧ tr.map Prod.snd = [.fault i va, .step i] ∧
      Meets DecrOk tr ∧ s'.m.phys = s.m.phys ∧ s'.job i = .kalloc va (p.pgdir.get va).ppn ∧
      (∀ k, s'.m.proc k = s.m.proc k) ∧ ∀ k, k ≠ i → s'.job k = s.job k := by
  obtain ⟨s1, h1⟩ : ∃ s1, s1 = s.put i s.m.phys (some p) (.getRefc va (p.pgdir.get va).ppn) :=
    ⟨_, rfl⟩
  obtain ⟨s2, h2⟩ : ∃ s2, s2 = s1.put i s1.m.phys (some p) (.kalloc va (p.pgdir.get va).ppn) :=
    ⟨_, rfl⟩
  have e1 : next ld s (.fault i va) = some s1 := by
    simp only [next, start, hj, hp]
    rw [if_neg (by simp [hz]), if_neg (has_page hpr), h1]
  have e2 : next ld s1 (.step i) = some s2 := by
    rw [next_step (p := p) (by simp [h1, Cpus.put, Machine.setProc])
      (t := .getRefc va (p.pgdir.get va).ppn) (by simp [h1, Cpus.put]), h2, stepJob, if_pos]
    simpa [h1, Cpus.put] using hc
  refine ⟨s2, [(s, .fault i va), (s1, .step i)], .cons e1 (.cons e2 (.nil _)), rfl, ?_, ?_, ?_, ?_, ?_⟩
  · intro x hx
    rcases mem_pair.mp hx with rfl | rfl
    · trivial
    · simp [DecrOk, h1, Cpus.put]
  · simp [h1, h2, Cpus.put]
  · simp [h2, Cpus.put]
  · intro k
    by_cases hk : k = i
    · subst hk
      simp [h2, Cpus.put, Machine.setProc, hp]
    · simp [h1, h2, Cpus.put, Machine.setProc, update_of_ne hk]
  · intro k hk
    simp [h1, h2, Cpus.put, update_of_ne hk]

theorem copy_run (ld : Linker) {pa : Nat} (hp : s.m.proc i = some p) (hj : s.job i = .kalloc va pa)
    (hfree : 0 < s.m.phys.freelist.length) (hpa : pa ∉ s.m.phys.freelist) :
    ∃ s' tr, Path (Next (next ld)) s tr s' ∧ tr.map Prod.snd = List.replicate 4 (.step i) ∧
      (1 < s.m.phys.refc_cnt pa → Meets DecrOk tr) ∧
      s'.m.phys.refc_cnt pa = s.m.phys.refc_cnt pa - 1 ∧ pa ∉ s'.m.phys.freelist ∧
      s.m.phys.freelist.length = s'.m.phys.freelist.length + 1 ∧
      s'.job i = .idle ∧ ∀ k, k ≠ i → s'.job k = s.job k ∧ s'.m.proc k = s.m.proc k := by
  obtain ⟨mem, ph, hk, hlen⟩ := kalloc_total hfree
  have hph : pa ∉ ph.freelist ∧ ph.refc_cnt pa = s.m.phys.refc_cnt pa := by
    rcases kalloc_cases hk with ⟨hc, -⟩ | ⟨q, rest, -, hf, rfl⟩
    · cases hc
    · rw [hf, mem_cons, not_or] at hpa
      exact ⟨hpa.2, update_of_ne hpa.1 _ _⟩
  obtain ⟨s1, h1⟩ : ∃ s1, s1 = s.put i ph (some p) (.memmove va pa mem) := ⟨_, rfl⟩
  obtain ⟨s2, h2⟩ : ∃ s2, s2 = s1.put i (s1.m.phys.setMem mem (s1.m.phys.mem pa)) (some p)
      (.setPte va pa mem) := ⟨_, rfl⟩
  obtain ⟨p3, h3p⟩ : ∃ p3, p3 = { p with pgdir := p.pgdir.set va (cowPte mem) } := ⟨_, rfl⟩
  obtain ⟨s3, h3⟩ : ∃ s3, s3 = s2.put i s2.m.phys (some p3) (.decrRefc pa) := ⟨_, rfl⟩
  obtain ⟨s4, h4⟩ : ∃ s4, s4 = s3.put i (s3.m.phys.setRefc pa (s3.m.phys.refc_cnt pa - 1)) (some p3)
      .idle := ⟨_, rfl⟩
  have e1 : next ld s (.step i) = some s1 := by
    rw [next_step hp hj, h1]
    simp only [stepJob, hk]
  have e2 : next ld s1 (.step i) = some s2 := by
    rw [next_step (p := p) (by simp [h1, Cpus.put, Machine.setProc])
      (t := .memmove va pa mem) (by simp [h1, Cpus.put]), h2, stepJob]
  have e3 : next ld s2 (.step i) = some s3 := by
    rw [next_step (p := p) (by simp [h2, Cpus.put, Machine.setProc])
      (t := .setPte va pa mem) (by simp [h2, Cpus.put]), h3, h3p, stepJob]
  have hj3 : s3.job i = .decrRefc pa := by simp [h3, Cpus.put]
  have e4 : next ld s3 (.step i) = some s4 := by
    rw [next_step (p := p3) (by simp [h3, Cpus.put, Machine.setProc]) hj3, h4, stepJob]
  have hphys : s3.m.phys.refc_cnt = ph.refc_cnt ∧ s3.m.phys.freelist = ph.freelist := by
    simp [h1, h2, h3, Cpus.put, Phys.setMem]
  refine ⟨s4, [(s, .step i), (s1, .step i), (s2, .step i), (s3, .step i)],
    .cons e1 (.cons e2 (.cons e3 (.cons e4 (.nil _)))), rfl, ?_, ?_, ?_, ?_, ?_, ?_⟩
  · intro hc x hx
    simp only [mem_cons, not_mem_nil, or_false] at hx
    rcases hx with rfl | rfl | rfl | rfl
    · simp [DecrOk, hj]
    · simp [DecrOk, h1, Cpus.put]
    · simp [DecrOk, h2, Cpus.put]
    · simp [DecrOk, hj3, hphys.1, hph.2, hc]
  · simp [h4, Cpus.put, Phys.setRefc, hphys.1, hph.2]
  · simpa [h4, Cpus.put, Phys.setRefc, hphys.2] using hph.1
  · simpa [h4, Cpus.put, Phys.setRefc, hphys.2] using hlen
  · simp [h4, Cpus.put]
  · intro k hk'
    simp [h1, h2, h3, h4, Cpus.put, Machine.setProc, update_of_ne hk']

/-! ## The race -/

/-- Both processes ask for the count, then the one copies the page, and then the other. -/
def race (i j : Fin NPROC) (va : Nat) : List Lbl :=
  [.fault i va, .step i] ++ [.fault j va, .step j] ++ List.replicate 4 (.step i) ++
    List.replicate 4 (.step j)

theorem userFault_race (hva : va < KERNBASE) {tr : List (Cpus × Lbl)}
    (htr : tr.map Prod.snd = race i j va) : Meets UserFault tr := by
  refine meets_of_labels htr fun l hl s => ?_
  simp only [race, mem_append, mem_cons, not_mem_nil, or_false, mem_replicate] at hl
  rcases hl with (((rfl | rfl) | (rfl | rfl)) | ⟨-, rfl⟩) | ⟨-, rfl⟩
  · exact hva
  · trivial
  · exact hva
  · trivial
  · trivial
  · trivial

theorem race_run {c : Proc} (h : Sys.Inv ld m) (hs : Sharers m i j va p c) (hva : va < KERNBASE)
    (hfree : 2 ≤ m.phys.freelist.length) :
    ∃ s tr, Path (Next (next ld)) ⟨m, fun _ => .idle⟩ tr s ∧ tr.map Prod.snd = race i j va ∧
      Quiet s ∧ ¬ Accounting ld s.m := by
  obtain ⟨hman, hnf⟩ := hs.in_use h hva
  have htwo := hs.two
  obtain ⟨pa, hpa⟩ : ∃ pa, pa = (p.pgdir.get va).ppn := ⟨_, rfl⟩
  rw [← hpa] at hman hnf htwo
  obtain ⟨s1, tr1, r1, l1, -, hph1, hj1, hp1, ho1⟩ := enter_run ld va
    (s := ⟨m, fun _ => .idle⟩) hs.fst hs.live.1 rfl hs.present.1 (by rw [hs.two]; decide)
  obtain ⟨s2, tr2, r2, l2, -, hph2, hj2, hp2, ho2⟩ := enter_run ld va (s := s1) (i := j)
    ((hp1 j).trans hs.snd) hs.live.2 (ho1 j hs.ne) hs.present.2
    (by rw [hph1, hs.same, hs.two]; decide)
  have hphys : s2.m.phys = m.phys := hph2.trans hph1
  obtain ⟨s3, tr3, r3, l3, -, hc3, hf3, hlen3, hj3, ho3⟩ := copy_run ld (s := s2) (i := i)
    ((hp2 i).trans ((hp1 i).trans hs.fst))
    ((ho2 i (Ne.symm hs.ne)).trans (hpa ▸ hj1)) (by rw [hphys]; omega) (by rw [hphys]; exact hnf)
  obtain ⟨s4, tr4, r4, l4, -, hc4, hf4, -, hj4, ho4⟩ := copy_run ld (s := s3) (i := j)
    (((ho3 j hs.ne).2.trans (hp2 j)).trans ((hp1 j).trans hs.snd))
    ((ho3 j hs.ne).1.trans (by rw [hj2, hs.same, hpa])) (by rw [hphys] at hlen3; omega) hf3
  refine ⟨s4, tr1 ++ tr2 ++ tr3 ++ tr4, ((r1.trans r2).trans r3).trans r4, ?_, ?_, ?_⟩
  · simp only [map_append, l1, l2, l3, l4, race]
  · intro k
    by_cases hkj : k = j
    · rw [hkj]; exact hj4
    · rw [(ho4 k hkj).1]
      by_cases hki : k = i
      · rw [hki]; exact hj3
      · rw [(ho3 k hki).1, ho2 k hkj, ho1 k hki]
  · intro ha
    have hzero : s4.m.phys.refc_cnt pa = 0 := by
      rw [hc4, hc3, hphys, htwo]
      rfl
    exact hf4 ((ha.free pa).mpr ⟨hman, hzero⟩)

theorem demo_sharers :
    ∃ m0 tr m j p c, boot demoLinker 2 (fun _ _ => 0) = .ok m0 ∧
      Path (Next (Sys.next demoLinker)) m0 tr m ∧ Meets ShortArgs tr ∧ Sys.Inv demoLinker m ∧
      Sharers m initproc j 0 p c ∧ 2 ≤ m.phys.freelist.length := by
  obtain ⟨m0, m1, p, hboot, hf, hinv, hfree, hp, hother, hz, hsz, hmaps, -⟩ :=
    first_growth (c := 2) (n := 0x1000) (by decide) (by decide) (by decide)
  have hsz' : p.sz = 0x2000 := by rw [hsz]
  obtain ⟨⟨-, hpr, -⟩, hw⟩ := hmaps 0 (by omega)
  obtain ⟨j, hu⟩ := exists_unused (hother ⟨1, by decide⟩ (by decide))
  obtain ⟨m, hfork, hlen⟩ := fork_total hinv hp (fun b hb => (hmaps b hb).1.2.1) hu
    (by rw [hsz']; simp only [PGSIZE]; omega)
  obtain ⟨j, p', c, hs⟩ := fork_sharers hinv hp hz (by omega) hpr hw hfork
  have hstep : Next (Sys.next demoLinker) m1 (.fork initproc) m :=
    by_of_ok (f := fun p => do let _ ← fork demoLinker initproc p) hp hz (discard_of_ok hfork)
  obtain ⟨tr, hrun, htr⟩ := path_of_follow hf
  refine ⟨m0, tr ++ [(m1, .fork initproc)], m, j, p', c, hboot,
    hrun.snoc hstep, (meets_snoc _ _ _ _).mpr ⟨meets_growth htr, ?_⟩,
    inv_fork hinv hp hfork, hs, ?_⟩
  · trivial
  rw [hsz'] at hlen
  simp only [PGSIZE] at hlen
  omega

theorem concurrent_faults_lose_page :
    ∃ m0 tr0 m j tr s, boot demoLinker 2 (fun _ _ => 0) = .ok m0 ∧
      Path (Next (Sys.next demoLinker)) m0 tr0 m ∧ Meets ShortArgs tr0 ∧
      Path (Next (next demoLinker)) ⟨m, fun _ => .idle⟩ tr s ∧
      tr.map Prod.snd = race initproc j 0 ∧ Meets UserFault tr ∧ Quiet s ∧
      ¬ Accounting demoLinker s.m := by
  obtain ⟨m0, tr0, m, j, p, c, hboot, hrun0, hshort, hinv, hs, hfree⟩ := demo_sharers
  obtain ⟨s, tr, hrun, htr, hq, hna⟩ := race_run hinv hs (by decide) hfree
  exact ⟨m0, tr0, m, j, tr, s, hboot, hrun0, hshort, hrun, htr, userFault_race (by decide) htr, hq, hna⟩

/-- One fault alone copies the page and loses nothing. -/
theorem no_page_lost_one_fault :
    ∃ m0 tr0 m tr s, boot demoLinker 2 (fun _ _ => 0) = .ok m0 ∧
      Path (Next (Sys.next demoLinker)) m0 tr0 m ∧ Meets ShortArgs tr0 ∧
      Path (Next (next demoLinker)) ⟨m, fun _ => .idle⟩ tr s ∧
      tr.map Prod.snd = [.fault initproc 0, .step initproc] ++ List.replicate 4 (.step initproc) ∧
      Along (fun s => Quiet s → Accounting demoLinker s.m) tr s := by
  obtain ⟨m0, tr0, m, j, p, c, hboot, hrun0, hshort, hinv, hs, hfree⟩ := demo_sharers
  have htwo : (1 : Int) < m.phys.refc_cnt (p.pgdir.get 0).ppn := by rw [hs.two]; decide
  obtain ⟨s1, tr1, r1, l1, hok1, hph1, hj1, hp1, -⟩ := enter_run demoLinker 0
    (s := ⟨m, fun _ => .idle⟩) hs.fst hs.live.1 rfl hs.present.1 htwo
  obtain ⟨s2, tr2, r2, l2, hok2, -⟩ := copy_run demoLinker ((hp1 initproc).trans hs.fst) hj1
    (by rw [hph1]; exact Nat.lt_of_lt_of_le (by decide) hfree)
    (by rw [hph1]; exact (hs.in_use hinv (by decide)).2)
  have hlabels : (tr1 ++ tr2).map Prod.snd =
      [.fault initproc 0, .step initproc] ++ List.replicate 4 (.step initproc) := by
    rw [List.map_append, l1, l2]
  have hu : Meets UserFault (tr1 ++ tr2) := meets_of_labels hlabels fun l hl s => by
    simp only [List.mem_append, List.mem_cons, List.not_mem_nil, or_false, List.mem_replicate] at hl
    rcases hl with (rfl | rfl) | ⟨-, rfl⟩ <;> simp [UserFault]
  refine ⟨m0, tr0, m, tr1 ++ tr2, s2, hboot, hrun0, hshort, r1.trans r2, hlabels,
    (no_page_lost_iff hboot hrun0 hshort (r1.trans r2) hu).1 fun x hx => ?_⟩
  rcases List.mem_append.mp hx with hx | hx
  · exact hok1 x hx
  · exact hok2 (by rw [hph1]; exact htwo) x hx

end Xv6.Smp
