import Xv6.Sys.Tidy
import Xv6.Sys.Wild

/-!
# Memory is conserved

A process may get other pages when it and its descendants write to what they share, but not more of
them. So when the descendants are gone, as many pages are free as before.
-/

open Xv6.Cmd Xv6.Pool Xv6.Run Xv6.Vm Function List

namespace Xv6.Sys

variable {ld : Linker} {m m' : Machine} {i : Fin NPROC} {p p' : Proc}

/-! ## The calls of the parent -/

/-- The process has a page wherever it had one. A page that is new to it has no entry in `sh`. -/
structure Keeps (sh : Nat → Nat) (p p' : Proc) : Prop where
  kstack : p'.kstack = p.kstack
  kern : ∀ q, p'.pgdir.kernRefs q = p.pgdir.kernRefs q
  present : ∀ va < KERNBASE, (p'.pgdir.get va).present = (p.pgdir.get va).present
  fresh : ∀ q, 0 < p'.pgdir.userRefs q → 0 < p.pgdir.userRefs q ∨ sh q = 0

theorem Keeps.refl (sh : Nat → Nat) (p : Proc) : Keeps sh p p :=
  ⟨rfl, fun _ => rfl, fun _ _ => rfl, fun _ h => .inl h⟩

theorem Keeps.trans {sh sh' : Nat → Nat} {p1 p2 p3 : Proc} (h : Keeps sh p1 p2) (h' : Keeps sh' p2 p3)
    (hle : ∀ q, sh q ≤ sh' q) : Keeps sh p1 p3 where
  kstack := h'.kstack.trans h.kstack
  kern q := (h'.kern q).trans (h.kern q)
  present va hva := (h'.present va hva).trans (h.present va hva)
  fresh q hq := by
    rcases h'.fresh q hq with h2 | h2
    · exact h.fresh q h2
    · have := hle q
      exact .inr (by omega)

theorem keeps_same {sh : Nat → Nat} (hk : p'.kstack = p.kstack) (hd : p.pgdir.Same p'.pgdir) :
    Keeps sh p p' where
  kstack := hk
  kern := hd.kernRefs
  present va _ := by rw [hd.get]
  fresh q hq := .inl (by rwa [hd.userRefs] at hq)

theorem keeps_demoted {sh : Nat → Nat} {d : PgDir} (h : Demoted p.pgdir d) :
    Keeps sh p { p with pgdir := d } where
  kstack := rfl
  kern := h.kern
  present va _ := by
    rcases h.entry va with he | he
    · exact congrArg Pte.present he
    · change (d.get va).present = _
      rw [he]
      rfl
  fresh q hq := .inl (by rwa [← h.user])

theorem keeps_cow {va : Nat} {d : PgDir} {ph : Phys} (h : Inv ld m) (hp : m.proc i = some p)
    (hva : va < KERNBASE) (hc : CoW_handler p.pgdir va m.phys = .ok (some d, ph)) :
    Keeps (m.sharedRest i) p { p with pgdir := d } := by
  have hun := CoW_handler_unshared hva (h.frame hp) hc
  have hset : (p.pgdir.get va).present = true ∧ ∃ e, d = p.pgdir.set va e := by
    rcases CoW_handler_cases hc with ⟨-, hn, -⟩ | ⟨hpr, -, hr, -⟩ | ⟨hpr, -, q, s1, -, hr, -⟩
    · cases hn
    · exact ⟨hpr, _, Option.some.inj hr⟩
    · exact ⟨hpr, _, Option.some.inj hr⟩
  refine ⟨rfl, fun q => ?_, fun b hb => ?_, fun q hq => ?_⟩
  · obtain ⟨-, e, rfl⟩ := hset
    exact PgDir.kernRefs_set _ _ _ q
  · change (d.get b).present = _
    by_cases hpg : b / PGSIZE = va / PGSIZE
    · rw [← PgDir.get_page d b, ← PgDir.get_page p.pgdir b, hpg, PgDir.get_page, PgDir.get_page, hun.present,
        hset.1]
    · rw [hun.out b (by simp only [KERNBASE] at hb; omega) hpg]
  · change 0 < d.userRefs q at hq
    by_cases hqv : q = (d.get va).ppn
    · have := hun.alone
      rw [← hqv] at this
      exact .inr (by omega)
    · have := hun.le q hqv
      exact .inl (by omega)

theorem keeps_exit {sh : Nat → Nat} {u : Unit} (he : exit i p m = .ok (u, m')) :
    ∃ p', m'.proc i = some p' ∧ Keeps sh p p' := by
  obtain ⟨-, rfl⟩ := exit_ok he
  exact ⟨_, update_self i _ m.proc, keeps_same rfl ⟨rfl, fun _ _ => rfl⟩⟩

theorem keeps_fork {r : Bool} (h : Inv ld m) (hp : m.proc i = some p) (hf : fork ld i p m = .ok (r, m')) :
    ∃ p', m'.proc i = some p' ∧ Keeps (m.sharedRest i) p p' := by
  rcases fork_cases hf with ⟨-, rfl⟩ | ⟨ph, -, -, rfl⟩ |
    ⟨j, kstack, ph1, pgdir, d, ph2, hj, hk, hc, ⟨-, -, ph3, -, rfl⟩ | ⟨c, -, -, rfl⟩⟩
  · exact ⟨p, hp, .refl _ p⟩
  · exact ⟨p, hp, .refl _ p⟩
  · exact ⟨_, update_self i _ m.proc, keeps_demoted (copyuvm_demoted h hp hk hc)⟩
  · have hij : i ≠ j := by
      rintro rfl
      rw [unused_none hj] at hp
      cases hp
    exact ⟨_, (update_of_ne hij _ _).trans (update_self i _ m.proc),
      keeps_demoted (copyuvm_demoted h hp hk hc)⟩

theorem keeps_fault {va : Nat} {u : Unit} (h : Inv ld m) (hp : m.proc i = some p) (hva : va < KERNBASE)
    (hf : fault i p va m = .ok (u, m')) : ∃ p', m'.proc i = some p' ∧ Keeps (m.sharedRest i) p p' := by
  rcases fault_cases hf with ⟨ph, -, he⟩ | ⟨d, ph, hc, rfl⟩
  · exact keeps_exit he
  · exact ⟨_, update_self i _ m.proc, keeps_cow h hp hva hc⟩

theorem keeps_store {va : Nat} {b : UInt8} {u : Unit} (h : Inv ld m) (hp : m.proc i = some p)
    (hva : va < KERNBASE) (hf : store i p va b m = .ok (u, m')) :
    ∃ p', m'.proc i = some p' ∧ Keeps (m.sharedRest i) p p' := by
  rcases store_cases hf with ⟨-, rfl⟩ | ⟨-, ⟨ph, -, he⟩ | ⟨d, ph, hc, rfl⟩⟩
  · exact ⟨p, hp, .refl _ p⟩
  · exact keeps_exit he
  · exact ⟨_, update_self i _ m.proc, keeps_cow h hp hva hc⟩

/-! ## Runs of a family -/

/-- The process of slot `i` only loads, stores, forks and waits. Its descendants are in slots that were
not in use at `m0`, and call neither `pipe` nor `close`. -/
def Family (i : Fin NPROC) (m0 : Machine) (_ : Machine) : Act → Prop
  | .fork k | .fault k _ | .load k _ | .store k _ _ => k = i ∨ m0.proc k = none
  | .exec k _ _ | .growproc k _ | .exit k => m0.proc k = none
  | .wait _ j => m0.proc j = none
  | .userinit _ | .pipealloc _ _ | .pipeclose _ _ _ => False

theorem Family.touches {m0 : Machine} {a : Act} {k : Fin NPROC} (h : Family i m0 m a) (hk : a.touches k) :
    k = i ∨ m0.proc k = none := by
  cases a <;> simp only [Act.touches] at hk <;> subst_vars <;> first | exact h | exact .inr h | exact h.elim

theorem Family.no_pipes {m0 : Machine} {a : Act} (h : Family i m0 m a) : ¬ a.usesPipes := by
  cases a <;> first | exact h.elim | exact id

/-- What a family leaves of the machine `m0`. -/
structure Kin (ld : Linker) (i : Fin NPROC) (m0 m : Machine) : Prop where
  inv : Inv ld m
  tidy : Tidy m
  rest : SameBut (fun k => k = i ∨ m0.proc k = none) m0 m
  proc : ∃ p0 p, m0.proc i = some p0 ∧ m.proc i = some p ∧ Keeps (m0.sharedRest i) p0 p

theorem sharedRest_apply (m : Machine) (i : Fin NPROC) (q : Nat) :
    m.sharedRest i q = m.kpgdir.userRefs q + ∑ k, userOf (if k = i then none else m.proc k) q := by
  simp only [Machine.sharedRest, Machine.shared, Machine.setProc, update_apply]

theorem Kin.sharedRest_le {m0 : Machine} (h : Kin ld i m0 m) (q : Nat) :
    m0.sharedRest i q ≤ m.sharedRest i q := by
  rw [sharedRest_apply, sharedRest_apply, h.rest.kpgdir.userRefs]
  refine Nat.add_le_add_left (Finset.sum_le_sum fun k _ => ?_) _
  by_cases hk : k = i ∨ m0.proc k = none
  · rcases hk with hk | hk
    · simp [hk]
    · simp [hk, userOf]
  · rw [if_neg (fun hc => hk (.inl hc)), if_neg (fun hc => hk (.inl hc)), (h.rest.slot k hk).userOf]

theorem keeps_next {m0 : Machine} {a : Act} (h : Inv ld m) (hp : m.proc i = some p)
    (hi : m0.proc i ≠ none) (ht : a.touches i) (hfam : Family i m0 m a) (hn : next ld m a = some m') :
    ∃ p', m'.proc i = some p' ∧ Keeps (m.sharedRest i) p p' := by
  cases a with
  | fork k =>
    obtain rfl : i = k := ht
    obtain ⟨p1, hp1, -, hf⟩ := by_some hn
    obtain ⟨r, hf⟩ := discard_ok hf
    obtain rfl := Option.some.inj (hp.symm.trans hp1)
    exact keeps_fork h hp hf
  | fault k va =>
    obtain rfl : i = k := ht
    obtain ⟨p1, hp1, -, hf⟩ := by_some hn
    obtain ⟨hmap, hf⟩ := if_throw_ok hf
    obtain rfl := Option.some.inj (hp.symm.trans hp1)
    exact keeps_fault h hp (Nat.lt_trans hmap.1 (h.wf i p hp).sz_lt) hf
  | store k va b =>
    obtain rfl : i = k := ht
    obtain ⟨p1, hp1, -, hf⟩ := by_some hn
    obtain ⟨hmap, hf⟩ := if_throw_ok hf
    obtain rfl := Option.some.inj (hp.symm.trans hp1)
    exact keeps_store h hp (Nat.lt_trans hmap.1 (h.wf i p hp).sz_lt) hf
  | exec k ip uargv =>
    obtain rfl : i = k := ht
    exact absurd hfam hi
  | growproc k n =>
    obtain rfl : i = k := ht
    exact absurd hfam hi
  | exit k =>
    obtain rfl : i = k := ht
    exact absurd hfam hi
  | wait k j =>
    obtain rfl : i = j := ht
    exact absurd hfam hi
  | userinit init => exact hfam.elim
  | pipealloc k files => exact ht.elim
  | pipeclose k n w => exact ht.elim
  | load k va => exact ht.elim

theorem kin_next {m0 : Machine} {a : Act} (h : Kin ld i m0 m) (hs : ShortArgs m a) (hfam : Family i m0 m a)
    (hn : next ld m a = some m') : Kin ld i m0 m' := by
  obtain ⟨p0, p, hp0, hp, hkeep⟩ := h.proc
  have hframe := frame_next h.inv hs hfam.no_pipes hn
  refine ⟨inv_next h.inv hs hn, tidy_next h.inv h.tidy hs hn, ?_, ?_⟩
  · refine ⟨h.rest.kpgdir.trans hframe.kpgdir, hframe.apstacks.trans h.rest.apstacks,
      hframe.pipes.trans h.rest.pipes, fun k hk => (h.rest.slot k hk).trans (hframe.slot k ?_)⟩
    rintro (ht | hnone)
    · exact hk (hfam.touches ht)
    · have hslot := h.rest.slot k hk
      cases hk0 : m0.proc k with
      | none => exact hk (.inr hk0)
      | some pk =>
        rw [hk0, hnone] at hslot
        exact hslot
  · by_cases ht : a.touches i
    · obtain ⟨p', hp', hkeep'⟩ := keeps_next h.inv hp (by rw [hp0]; simp) ht hfam hn
      exact ⟨p0, p', hp0, hp', hkeep.trans hkeep' h.sharedRest_le⟩
    · have hslot := hframe.slot i (by rw [hp]; rintro (hc | hc); exacts [ht hc, by cases hc])
      rw [hp] at hslot
      obtain ⟨p', hp', hk', hd'⟩ := hslot.exists_some
      have hsame : Keeps (m0.sharedRest i) p p' := keeps_same hk' hd'
      exact ⟨p0, p', hp0, hp', hkeep.trans hsame fun _ => Nat.le_refl _⟩

/-! ## Counting the pages -/

/-- The pages where a directory maps memory. -/
noncomputable def mapped (d : PgDir) : Finset Nat := userPages.filter fun v => (d.get (v * PGSIZE)).present = true

/-- What it maps there. -/
noncomputable def pages (d : PgDir) : Finset Nat := (mapped d).image fun v => (d.get (v * PGSIZE)).ppn

theorem mem_pages {d : PgDir} {q : Nat} : q ∈ pages d ↔ 0 < d.userRefs q := by
  simp only [pages, mapped, Finset.mem_image, Finset.mem_filter]
  constructor
  · rintro ⟨v, ⟨hv, hp⟩, rfl⟩
    exact PgDir.userRefs_pos hp (mem_userPages.mp hv)
  · intro h
    obtain ⟨va, hva, hp, rfl⟩ := exists_of_userRefs_pos h
    refine ⟨va / PGSIZE, ⟨mem_userPages.mpr ?_, ?_⟩, ?_⟩
    · simp only [PGSIZE, KERNBASE] at *
      omega
    · rw [PgDir.get_page]
      exact hp
    · rw [PgDir.get_page]

theorem card_pages {d : PgDir} (h : ∀ q, d.userRefs q ≤ 1) : (pages d).card = (mapped d).card := by
  refine Finset.card_image_of_injOn fun v hv w hw heq => ?_
  obtain ⟨hv, hpv⟩ := Finset.mem_filter.mp (Finset.mem_coe.mp hv)
  obtain ⟨hw, hpw⟩ := Finset.mem_filter.mp (Finset.mem_coe.mp hw)
  by_contra hne
  have htwo := PgDir.two_le_userRefs hpv (mem_userPages.mp hv) hpw (mem_userPages.mp hw) heq.symm (by
    simpa [PGSIZE] using hne)
  have := h (d.get (v * PGSIZE)).ppn
  omega

theorem free_or_mine (h : Inv ld m) (hp : m.proc i = some p)
    (halone : ∀ q, 0 < p.pgdir.userRefs q → m.sharedRest i q = 0) (q : Nat) :
    q ∈ m.phys.freelist.toFinset ∪ pages p.pgdir ↔ Managed ld q ∧ m.own q = 0 ∧ m.sharedRest i q = 0 := by
  have hshared := shared_eq m i q
  rw [hp, userOf] at hshared
  rw [Finset.mem_union, mem_toFinset, mem_pages, h.acct.mem]
  constructor
  · rintro (⟨hm, h0⟩ | hpos)
    · exact ⟨hm, by omega, by omega⟩
    · have hex := h.acct.excl q
      exact ⟨h.acct.inDom q (by omega), by omega, halone q hpos⟩
  · rintro ⟨hm, h0, h1⟩
    by_cases hpos : 0 < p.pgdir.userRefs q
    · exact .inr hpos
    · exact .inl ⟨hm, by omega⟩

theorem length_free (h : Inv ld m) (ht : Tidy m) (hp : m.proc i = some p) :
    (m.phys.freelist.toFinset ∪ pages p.pgdir).card = m.phys.freelist.length + (mapped p.pgdir).card := by
  rw [Finset.card_union_of_disjoint, toFinset_card_of_nodup h.acct.nodup, card_pages (ht.proc hp)]
  rw [Finset.disjoint_left]
  intro q hq hpos
  have h0 := ((h.acct.mem q).mp (mem_toFinset.mp hq)).2
  have hshared := shared_eq m i q
  rw [hp, userOf] at hshared
  have := mem_pages.mp hpos
  omega

theorem Kin.uses {m0 : Machine} (h : Kin ld i m0 m) (hgone : ∀ k, m0.proc k = none → m.proc k = none)
    (q : Nat) : m.own q = m0.own q ∧ m.sharedRest i q = m0.sharedRest i q := by
  obtain ⟨p0, p, hp0, hp, hkeep⟩ := h.proc
  constructor
  · unfold Machine.own
    rw [h.rest.kpgdir.kernRefs, h.rest.apstacks, h.rest.pipes]
    refine congrArg _ (Finset.sum_congr rfl fun k _ => ?_)
    by_cases hk : k = i ∨ m0.proc k = none
    · rcases hk with rfl | hk
      · rw [hp0, hp, kernOf, kernOf, hkeep.kstack, hkeep.kern]
      · rw [hk, hgone k hk]
    · exact (h.rest.slot k hk).kernOf q
  · rw [sharedRest_apply, sharedRest_apply, h.rest.kpgdir.userRefs]
    refine congrArg _ (Finset.sum_congr rfl fun k _ => ?_)
    by_cases hki : k = i
    · rw [if_pos hki, if_pos hki]
    · rw [if_neg hki, if_neg hki]
      cases hk : m0.proc k with
      | none => rw [hgone k hk]
      | some pk =>
        rw [← hk]
        exact (h.rest.slot k (by rw [hk]; rintro (hc | hc); exacts [hki hc, by cases hc])).userOf q

theorem mapped_congr {d d' : PgDir} (h : ∀ va < KERNBASE, (d'.get va).present = (d.get va).present) :
    mapped d' = mapped d :=
  Finset.filter_congr fun v hv => by rw [h _ (mem_userPages.mp hv)]

theorem Kin.length_eq {m0 : Machine} (h0 : Inv ld m0) (ht0 : Tidy m0) (h : Kin ld i m0 m)
    (halone : ∀ q, 0 < userOf (m0.proc i) q → m0.sharedRest i q = 0)
    (hgone : ∀ k, m0.proc k = none → m.proc k = none) :
    m.phys.freelist.length = m0.phys.freelist.length := by
  obtain ⟨p0, p, hp0, hp, hkeep⟩ := h.proc
  rw [hp0] at halone
  have halone' : ∀ q, 0 < p.pgdir.userRefs q → m.sharedRest i q = 0 := by
    intro q hq
    rw [(h.uses hgone q).2]
    rcases hkeep.fresh q hq with h1 | h1
    · exact halone q h1
    · exact h1
  have hset : m.phys.freelist.toFinset ∪ pages p.pgdir = m0.phys.freelist.toFinset ∪ pages p0.pgdir := by
    ext q
    obtain ⟨hown, hrest⟩ := h.uses hgone q
    rw [free_or_mine h.inv hp halone' q, free_or_mine h0 hp0 halone q, hown, hrest]
  have hcard := congrArg Finset.card hset
  rw [length_free h.inv h.tidy hp, length_free h0 ht0 hp0, mapped_congr hkeep.present] at hcard
  omega

theorem kin_path {m0 m1 : Machine} {tr : List (Machine × Act)} (h : Kin ld i m0 m1)
    (hrun : Path (Next (next ld)) m1 tr m) (hshort : Meets ShortArgs tr) (hfam : Meets (Family i m0) tr) :
    Along (Kin ld i m0) tr m :=
  along_of_step (fun s a _ h (hs : ShortArgs s a ∧ Family i m0 s a) hn => kin_next h hs.1 hs.2 hn) hrun h
    fun x hx => ⟨hshort x hx, hfam x hx⟩

theorem kin_along {m0 : Machine} {tr : List (Machine × Act)} (h0 : Inv ld m0) (ht0 : Tidy m0)
    (hproc : m0.proc i ≠ none) (hrun : Path (Next (next ld)) m0 tr m) (hshort : Meets ShortArgs tr)
    (hfam : Meets (Family i m0) tr) : Along (Kin ld i m0) tr m := by
  obtain ⟨p0, hp0⟩ := Option.ne_none_iff_exists'.mp hproc
  exact kin_path ⟨h0, ht0, .refl _ m0, p0, p0, hp0, hp0, .refl _ p0⟩ hrun hshort hfam

theorem Tidy.sharedRest_eq_zero {q : Nat} (h : Tidy m) (hq : ∀ k, k ≠ i → userOf (m.proc k) q = 0) :
    m.sharedRest i q = 0 := by
  rw [sharedRest_apply, h.kern, Nat.zero_add]
  refine Finset.sum_eq_zero fun k _ => ?_
  split
  · rfl
  · next hk => exact hq k hk

/-! ## A family of two -/

/-- The first process and its child, after a `fork`. -/
structure Pair (m : Machine) (c : Fin NPROC) (p : Proc) : Prop where
  inv : Inv demoLinker m
  ne : initproc ≠ c
  parent : ∃ x, m.proc initproc = some x ∧ x.zombie = false
  child : m.proc c = some p
  live : p.zombie = false
  others : ∀ k, k ≠ initproc → k ≠ c → m.proc k = none

theorem first_fork :
    ∃ mb m0 m c p, boot demoLinker 1 (fun _ _ => 0) = .ok mb ∧
      next demoLinker mb (.userinit []) = some m0 ∧ m0.proc initproc ≠ none ∧
      (∀ k, k ≠ initproc → m0.proc k = none) ∧ next demoLinker m0 (.fork initproc) = some m ∧ Pair m c p ∧
      0xdb00 ≤ m.phys.freelist.length ∧ p.sz = PGSIZE ∧ p.Maps 0 := by
  obtain ⟨mb, m0, d, kstack, hboot, h0, hinv0, hfree0, hp0, hother, hpr, -, hus⟩ := first_process (c := 1)
    (by decide)
  have hpage : ∀ b < (firstProc d kstack).sz, d.get b = d.get 0 := by
    intro b hb
    rw [← PgDir.get_page d b, show b / PGSIZE = 0 from Nat.div_eq_of_lt hb]
    rfl
  obtain ⟨c, hu⟩ := exists_unused (hother ⟨1, by decide⟩ (by decide))
  have hsz : (firstProc d kstack).sz / PGSIZE = 1 := by
    change PGSIZE / PGSIZE = 1
    decide
  obtain ⟨m, hf, hlen⟩ := fork_total hinv0 hp0 (fun b hb => by
    change (d.get b).present = true
    rw [hpage b hb]
    exact hpr) hu (by omega)
  have hnext := by_of_ok (f := fun p => do let _ ← fork demoLinker initproc p) hp0 rfl (discard_of_ok hf)
  have hinv := inv_fork hinv0 hp0 hf
  have hwf := hinv0.wf _ _ hp0
  have hne : initproc ≠ c := by
    rintro rfl
    rw [unused_none hu] at hp0
    cases hp0
  rcases fork_cases hf with ⟨hc, -⟩ | ⟨ph, -, hc, -⟩ |
    ⟨j, kstack', ph1, pgdir, dc, ph2, hj, hk, hcopy, ⟨-, hc, -⟩ | ⟨dc, rfl, -, hm⟩⟩
  · cases hc
  · cases hc
  · cases hc
  · obtain rfl : c = j := Option.some.inj (hu.symm.trans hj)
    have hshape := (copyuvm_shape (Nat.le_of_lt hwf.sz_lt) hcopy).2 0 (by decide)
    rw [if_pos (by change 0 / PGSIZE * PGSIZE < PGSIZE; decide)] at hshape
    refine ⟨mb, m0, m, c, childOf (firstProc d kstack) dc kstack', hboot, h0, by rw [hp0]; simp, hother, hnext,
      ⟨hinv, hne, ⟨firstProc pgdir kstack, ?_, rfl⟩, ?_, rfl, ?_⟩, by omega, rfl, ?_⟩
    · rw [hm]
      exact (update_of_ne hne _ _).trans (update_self initproc _ m0.proc)
    · rw [hm]
      exact update_self _ _ _
    · intro k h1 h2
      rw [hm]
      exact (update_of_ne h2 _ _).trans ((update_of_ne h1 _ _).trans (hother k h1))
    · change 0 < PGSIZE ∧ (dc.get 0).present = true ∧ (dc.get 0).user = true
      rw [hshape.2.1]
      exact ⟨by decide, hpr, hus⟩

theorem reap_child {c : Fin NPROC} {x : Proc} {sh : Nat → Nat} (hne : initproc ≠ c)
    (hx : m.proc initproc = some x) (hlive : x.zombie = false) (hp : m.proc c = some p) (hz : p.zombie = false)
    (ha : Acct (Managed ld) m.phys m.own (p.pgdir.userRefs + sh)) :
    ∃ ph, follow (next ld) m [.exit c, .wait initproc c] = some { m.setProc c none with phys := ph } ∧
      Acct (Managed ld) ph (m.ownRest c) sh := by
  have hexit : next ld m (.exit c) = some (m.setProc c (some { p with zombie := true })) := by
    refine by_of_ok hp hz ?_
    rw [exit, if_neg (Ne.symm hne)]
    rfl
  have hacct : Acct (Managed ld) m.phys (p.pgdir.kernRefs + m.ownRest c + one p.kstack)
      (p.pgdir.userRefs + sh) :=
    ha.congr (fun q => by
      have := own_eq m c q
      simp only [hp, kernOf, Pi.add_apply] at *
      omega) fun _ => rfl
  obtain ⟨ph, hw, ha2⟩ := wait_total (j := c) (p := { p with zombie := true })
    (m := m.setProc c (some { p with zombie := true })) hacct
  refine ⟨ph, ?_, ha2⟩
  have hwait : next ld (m.setProc c (some { p with zombie := true })) (.wait initproc c) =
      some { m.setProc c none with phys := ph } := by
    have hc : (m.setProc c (some { p with zombie := true })).proc c = some { p with zombie := true } :=
      update_self _ _ _
    refine by_of_ok ((update_of_ne hne _ _).trans hx) hlive ?_
    rw [hc]
    dsimp only
    rw [if_pos rfl, hw]
    simp [Machine.setProc]
  rw [follow, hexit, Option.bind_some, follow, hwait]
  rfl

/-! ## Conservation -/

/-! ## A leak

The child grows, writes a string of 32 megabytes and calls `exec` with it. -/

theorem child_ready {c : Fin NPROC} (h : Pair m c p) (hfree : 0xdb00 ≤ m.phys.freelist.length)
    (hsz : p.sz = PGSIZE) (hmap : p.Maps 0) :
    ∃ m' p', follow (next demoLinker) m [.growproc c 0x2003000, .store c 0 0] = some m' ∧ Pair m' c p' ∧
      71 ≤ m'.phys.freelist.length ∧ p'.sz = 0x2004000 ∧
      ∀ a < p'.sz, p'.Maps a ∧ (p'.pgdir.get a).writable = true := by
  obtain ⟨x, hx, hlive⟩ := h.parent
  obtain ⟨d, ph, hg, hlen, hold, hnew⟩ := grow_one_page h.inv h.child hsz (n := 0x2003000) (by decide)
    (by decide) (Nat.le_trans (by decide) hfree)
  have hgrow := by_of_ok (f := fun p => do let _ ← growproc demoLinker c p ((0x2003000 : Nat) : Int)) h.child
    h.live (discard_of_ok hg)
  obtain ⟨m1, hm1⟩ : ∃ m1 : Machine, m1 =
    { m.setProc c (some { p with pgdir := d, sz := PGSIZE + 0x2003000 }) with phys := ph } := ⟨_, rfl⟩
  rw [← hm1] at hgrow hg
  have hinv1 := inv_growproc h.inv h.child hg
  have hp1 : m1.proc c = some { p with pgdir := d, sz := PGSIZE + 0x2003000 } := by
    rw [hm1]
    exact update_self _ _ _
  have hfree1 : 0x9000 ≤ m1.phys.freelist.length := by
    rw [hm1]
    change 0x9000 ≤ ph.freelist.length
    simp only [PGSIZE] at hlen
    omega
  have hd0 := hold 0 (by decide)
  have hpres0 : (d.get 0).present = true := by
    rw [hd0]
    exact hmap.2.1
  obtain ⟨d', ph', hcow, hlen'⟩ := CoW_handler_total (s := m1.phys) hpres0 (by omega)
  have hun := CoW_handler_unshared (by decide) (hinv1.frame hp1) hcow
  -- The first store makes the page that is still shared with the parent a page of its own.
  have hmaps1 : Proc.Maps { p with pgdir := d, sz := PGSIZE + 0x2003000 } 0 := by
    refine ⟨(by decide : 0 < PGSIZE + 0x2003000), ?_, ?_⟩
    · rw [hd0]
      exact hmap.2.1
    · rw [hd0]
      exact hmap.2.2
  have hstore : ∃ m2, next demoLinker m1 (.store c 0 0) = some m2 ∧ Inv demoLinker m2 ∧
      m2.phys.freelist.length + 1 ≥ m1.phys.freelist.length ∧
      (∀ k, k ≠ c → m2.proc k = m1.proc k) ∧
      ∃ d2, m2.proc c = some { p with pgdir := d2, sz := PGSIZE + 0x2003000 } ∧
        (∀ b < 0x100000000, b / PGSIZE ≠ 0 → d2.get b = d.get b) ∧ (d2.get 0).present = true ∧
        (d2.get 0).writable = true ∧ (d2.get 0).user = true := by
    by_cases hw : (d.get 0).writable = true
    · have hn : next demoLinker m1 (.store c 0 0) =
          some { m1 with phys := Phys.setByte m1.phys d 0 0 } := by
        refine by_of_ok hp1 h.live ?_
        rw [if_pos hmaps1, store, if_pos hw]
      refine ⟨_, hn, inv_next (a := .store c 0 0) hinv1 trivial hn, Nat.le_succ _, fun _ _ => rfl, d, hp1, fun _ _ _ => rfl,
        hmaps1.2.1, hw, hmaps1.2.2⟩
    · have hn : next demoLinker m1 (.store c 0 0) =
          some { m1.setProc c (some { p with pgdir := d', sz := PGSIZE + 0x2003000 }) with
            phys := Phys.setByte ph' d' 0 0 } := by
        refine by_of_ok hp1 h.live ?_
        rw [if_pos hmaps1, store, if_neg hw, bind_of_ok (onPhys_of_ok hcow)]
        rfl
      refine ⟨_, hn, inv_next (a := .store c 0 0) hinv1 trivial hn, hlen', fun k hk => update_of_ne hk _ _, d',
        update_self _ _ _, fun b hb hne => hun.out b hb hne, hun.present, hun.writable,
        hun.user hmaps1.2.2⟩
  obtain ⟨m2, hn2, hinv2, hlen2, hother, d2, hp2, hout, hpr, hwr, hus⟩ := hstore
  refine ⟨m2, _, ?_, ⟨hinv2, h.ne, ⟨x, ?_, hlive⟩, hp2, h.live, fun k h1 h2 => ?_⟩, by omega, rfl,
    fun a ha => ?_⟩
  · have hgrow' : next demoLinker m (.growproc c 0x2003000) = some m1 := hgrow
    rw [follow, hgrow', Option.bind_some, follow, hn2]
    rfl
  · rw [hother _ h.ne, hm1]
    exact (update_of_ne h.ne _ _).trans hx
  · rw [hother k h2, hm1]
    exact (update_of_ne h2 _ _).trans (h.others k h1 h2)
  · change a < PGSIZE + 0x2003000 at ha
    change (a < PGSIZE + 0x2003000 ∧ (d2.get a).present = true ∧ (d2.get a).user = true) ∧
      (d2.get a).writable = true
    by_cases hap : a < PGSIZE
    · rw [← PgDir.get_page d2 a, show a / PGSIZE = 0 from Nat.div_eq_of_lt hap]
      exact ⟨⟨ha, hpr, hus⟩, hwr⟩
    · obtain ⟨q, hq, -⟩ := hnew a (by omega) ha
      rw [hout a (by simp only [PGSIZE] at *; omega) (by simp only [PGSIZE] at *; omega), hq]
      exact ⟨⟨ha, rfl, rfl⟩, rfl⟩

theorem FirstTab.userRefs_poked {t : PgTab} (h : FirstTab m i p t) (hone : p.pgdir.kernRefs t.page = 1)
    (hpres : (p.pgdir.get 0x3ff000).present = true) (q : Nat) :
    p.pgdir.userRefs q =
      (pokeDir t.page 0xffc fakeBytes p.pgdir).userRefs q + one (p.pgdir.get 0x3ff000).ppn q := by
  have hv : 0x3ff ∈ userPages := mem_userPages.mpr (by decide)
  have hsum := sum_change userPages (fun v => (p.pgdir.get (v * PGSIZE)).holds q)
    (fun v => ((pokeDir t.page 0xffc fakeBytes p.pgdir).get (v * PGSIZE)).holds q) 0x3ff hv (by
      intro v hv' hne
      have hlt := mem_userPages.mp hv'
      rw [h.get_poked hone (by simp only [KERNBASE] at hlt; omega), if_neg (by simpa [PGSIZE] using hne)])
  have hgone : ((pokeDir t.page 0xffc fakeBytes p.pgdir).get (0x3ff * PGSIZE)).holds q = 0 := by
    rw [h.get_poked hone (by decide), if_pos (by decide)]
    rfl
  rw [hgone, show 0x3ff * PGSIZE = 0x3ff000 from rfl, Pte.holds_of_present hpres] at hsum
  exact hsum.symm

theorem ownRest_poked (m : Machine) (c : Fin NPROC) (q off : Nat) (bs : List UInt8) (r : Nat) :
    (m.poked q off bs).ownRest c r = m.ownRest c r := by
  have h1 := own_poked m q off bs r
  have h2 := own_eq m c r
  have h3 := own_eq (m.poked q off bs) c r
  have hc : kernOf ((m.poked q off bs).proc c) r = kernOf (m.proc c) r := by
    change kernOf ((m.proc c).map _) r = _
    cases m.proc c with
    | none => rfl
    | some p => simp only [Option.map_some, kernOf, kernRefs_pokeDir]
  omega

theorem length_of_leak {ph ph' : Phys} {dom : Nat → Prop} {own sh : Nat → Nat} {q : Nat}
    (h : Acct dom ph own (one q + sh)) (h' : Acct dom ph' own sh) (hq : sh q = 0) :
    ph.freelist.length + 1 = ph'.freelist.length := by
  have hown : own q = 0 := by
    have := h.excl q
    simp only [Pi.add_apply, one_self] at this
    omega
  have hset : ph'.freelist.toFinset = insert q ph.freelist.toFinset := by
    ext r
    rw [Finset.mem_insert, mem_toFinset, mem_toFinset, h.mem, h'.mem, Pi.add_apply]
    by_cases hr : r = q
    · subst hr
      have hdom := h.inDom r (by simp)
      simp [hdom, hown, hq]
    · simp [hr, one_of_ne hr]
  have hnot : q ∉ ph.freelist.toFinset := by
    rw [mem_toFinset, h.mem]
    simp
  rw [← toFinset_card_of_nodup h.nodup, ← toFinset_card_of_nodup h'.nodup, hset,
    Finset.card_insert_of_notMem hnot]

theorem exec_leaks {m0 : Machine} {c : Fin NPROC} {t : PgTab} (hkin : Kin demoLinker initproc m0 m)
    (h0 : Inv demoLinker m0) (ht0 : Tidy m0) (hother : ∀ k, k ≠ initproc → m0.proc k = none)
    (h : Pair m c p) (htab : p.pgdir.tab 0 = some t) (hfree : 71 ≤ m.phys.freelist.length)
    (hsz : p.sz = 0x2004000) (hmaps : ∀ a < p.sz, p.Maps a ∧ (p.pgdir.get a).writable = true)
    (hstr : fetchstr m.phys p 0x1000 = some (some (List.replicate longLen 2)))
    (hword : (List.range 4).map (m.phys.mem (p.pgdir.get 0).ppn) = wordBytes (t.page * 0x1000 + 5)) :
    ∃ m', follow (next demoLinker) m [.exec c (some emptyElf) [0x1000], .exit c, .wait initproc c] = some m' ∧
      m'.phys.freelist.length + 1 = m0.phys.freelist.length ∧ ∀ k, k ≠ initproc → m'.proc k = none := by
  obtain ⟨x, hx, hlive⟩ := h.parent
  have hc0 := hother c (Ne.symm h.ne)
  have hpresX := (hmaps 0x3ff000 (by omega)).1.2.1
  have hone := h.inv.excl c p h.child 0x3ff000 (by decide) hpresX (hmaps 0x3ff000 (by omega)).2
  have hpos := PgDir.userRefs_pos hpresX (by decide)
  have hshared : ∀ q, m.shared q = m.sharedRest c q + p.pgdir.userRefs q := fun q => by
    rw [shared_eq m c q, h.child, userOf]
  -- Without the `exec` the child would give back all its pages.
  have hacct1 : Acct (Managed demoLinker) m.phys m.own (p.pgdir.userRefs + m.sharedRest c) :=
    h.inv.acct.congr (fun _ => rfl) fun q => by rw [hshared, Pi.add_apply, Nat.add_comm]
  obtain ⟨ph1, hreap1, ha1⟩ := reap_child h.ne hx hlive h.child h.live hacct1
  have hlen1 : ph1.freelist.length = m0.phys.freelist.length := by
    obtain ⟨tr, hrun, htr⟩ := path_of_follow hreap1
    have hkin1 := (kin_path hkin hrun
      (meets_of_labels htr fun a ha s => by rcases mem_pair.mp ha with rfl | rfl <;> trivial)
      (meets_of_labels htr fun a ha s => by rcases mem_pair.mp ha with rfl | rfl <;> exact hc0)).2
    refine hkin1.length_eq h0 ht0 (fun q _ => ht0.sharedRest_eq_zero fun k hk => by rw [hother k hk]; rfl)
      fun k hk => ?_
    by_cases hkc : k = c
    · rw [hkc]
      exact update_self _ _ _
    · refine (update_of_ne hkc _ _).trans (h.others k ?_ hkc)
      rintro rfl
      obtain ⟨p0, -, hp0, -⟩ := hkin.proc
      rw [hk] at hp0
      cases hp0
  have hfirst : FirstTab m c p t := ⟨h.child, htab⟩
  obtain ⟨ph, he, hacct⟩ := exec_long hfirst h.inv hfree (hmaps 0 (by omega)).1.2.1 hword
  have hexec := by_of_ok (f := fun p => do let _ ← sys_exec demoLinker c p (some emptyElf) [0x1000])
    h.child h.live (discard_of_ok (sys_exec_of_string hstr he))
  obtain ⟨-, -, -, -, -, -, hkr⟩ := hfirst.alone (hacct.single _)
  have hrefs := hfirst.userRefs_poked hkr hpresX
  have hpc : (m.poked t.page 0xffc fakeBytes).proc c =
      some { p with pgdir := pokeDir t.page 0xffc fakeBytes p.pgdir } := by
    simp only [Machine.poked, h.child, Option.map_some]
  have hpx : (m.poked t.page 0xffc fakeBytes).proc initproc =
      some { x with pgdir := pokeDir t.page 0xffc fakeBytes x.pgdir } := by
    simp only [Machine.poked, hx, Option.map_some]
  have hacct2 : Acct (Managed demoLinker) ph (m.poked t.page 0xffc fakeBytes).own
      ((pokeDir t.page 0xffc fakeBytes p.pgdir).userRefs +
        (one (p.pgdir.get 0x3ff000).ppn + m.sharedRest c)) :=
    hacct.congr (fun q => own_poked m _ _ _ q) fun q => by
      rw [hshared, hrefs q]
      simp only [Pi.add_apply]
      omega
  obtain ⟨ph2, hreap2, ha2⟩ := reap_child
    (m := { m.poked t.page 0xffc fakeBytes with phys := ph }) h.ne hpx hlive hpc h.live hacct2
  refine ⟨{ (m.poked t.page 0xffc fakeBytes).setProc c none with phys := ph2 }, ?_, ?_, fun k hk => ?_⟩
  · change next demoLinker m (.exec c (some emptyElf) [0x1000]) = _ at hexec
    rw [follow, hexec, Option.bind_some]
    exact hreap2
  · rw [← hlen1]
    refine length_of_leak (ha2.congr (fun q => (ownRest_poked m c _ _ _ q).symm) fun _ => rfl) ha1 ?_
    rw [hshared] at hone
    omega
  · by_cases hkc : k = c
    · rw [hkc]
      exact update_self _ _ _
    · refine (update_of_ne hkc _ _).trans ?_
      change ((m.proc k).map _) = none
      rw [h.others k hk hkc]
      rfl

/-- What the child writes: the payload, and the end of the string. -/
def leakBytes (q a : Nat) : UInt8 := if a < 0x1000 + longLen then payload q a else 0

/-- The calls of the first process and its child `c`, whose first page table is `q`. -/
def leakActs (c : Fin NPROC) (q : Nat) : List Act :=
  [.fork initproc] ++ ([.growproc c 0x2003000, .store c 0 0] ++
    (storeActs c (leakBytes q) (0x1000 + longLen + 1) ++
      [.exec c (some emptyElf) [0x1000], .exit c, .wait initproc c]))

theorem leakActs_family {m0 : Machine} {c : Fin NPROC} {q : Nat} (hc : m0.proc c = none) :
    ∀ a ∈ leakActs c q, ∀ s, Family initproc m0 s a := by
  intro a ha s
  simp only [leakActs, storeActs, mem_append, mem_cons, not_mem_nil, or_false,
    mem_map] at ha
  rcases ha with rfl | ⟨rfl | rfl⟩ | ⟨v, -, rfl⟩ | rfl | rfl | rfl
  · exact .inl rfl
  · exact hc
  · exact .inr hc
  · exact .inr hc
  · exact hc
  · exact hc
  · exact hc

end Xv6.Sys
