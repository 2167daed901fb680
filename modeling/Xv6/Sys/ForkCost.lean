import Xv6.Sys.Total
import Xv6.Vm.Copy

/-!
# What `fork` costs, and what it leaves when it fails

A `fork` that succeeds takes a number of pages that depends on the size of the process only, and
shares every user page. One that fails, wherever it runs out of pages, leaves the free list, the counts
and the memory of the parent as they were.
-/

open Xv6.Cmd Xv6.Pool Xv6.Run Xv6.Vm Function List

namespace Xv6.Sys

variable {ld : Linker} {m m' : Machine} {i : Fin NPROC} {p : Proc} {s : Phys} {d : PgDir}

/-! ## A successful `fork` -/

theorem mem_lentPages {sz va : Nat} (hva : va < sz) :
    (d.get va).ppn ∈ lentPages d 0 sz := by
  refine mem_map.mpr ⟨va / PGSIZE, mem_range.mpr ?_, ?_⟩
  · simp only [PGSIZE]
    omega
  · rw [Nat.zero_add, PgDir.get_page]

theorem nodup_lentPages {sz : Nat}
    (h : ∀ a < sz, ∀ b < sz, (d.get a).ppn = (d.get b).ppn → a / PGSIZE = b / PGSIZE) :
    (lentPages d 0 sz).Nodup := by
  have hlt : ∀ k ∈ List.range ((sz - 0 + PGSIZE - 1) / PGSIZE), 0 + k * PGSIZE < sz := by
    intro k hk
    have := mem_range.mp hk
    simp only [PGSIZE] at *
    omega
  refine List.Nodup.map_on (fun k hk l hl heq => ?_) nodup_range
  have := h _ (hlt k hk) _ (hlt l hl) heq
  simp only [PGSIZE] at this
  omega

theorem kalloc_takes {q : Nat} {s1 : Phys} (h : kalloc s = .ok (some q, s1)) :
    s.freelist = q :: s1.freelist ∧ (∀ r, r ≠ q → s1.refc_cnt r = s.refc_cnt r) ∧ s1.mem = s.mem := by
  rcases kalloc_cases h with ⟨hc, -⟩ | ⟨q', rest, hr, hf, rfl⟩
  · cases hc
  · obtain rfl := Option.some.inj hr
    exact ⟨hf, fun r hr => update_of_ne hr _ _, rfl⟩

theorem fork_lent (hsz : p.sz < KERNBASE) (h : fork ld i p m = .ok (true, m')) :
    ∃ j c taken, m.unused = some j ∧ m'.proc j = some c ∧
      (∀ va < p.sz, (c.pgdir.get va).ppn = (p.pgdir.get va).ppn) ∧
      Lent taken (lentPages p.pgdir 0 p.sz) m.phys m'.phys ∧ taken.length = 66 + userTabs p.sz := by
  rcases fork_cases h with ⟨hc, -⟩ | ⟨ph, -, hc, -⟩ |
    ⟨j, kstack, ph1, pgdir, d, ph2, hj, hk, hcopy, ⟨-, hc, -⟩ | ⟨c, rfl, -, rfl⟩⟩
  · cases hc
  · cases hc
  · cases hc
  · obtain ⟨t, ht, hlen⟩ := copyuvm_lent (Nat.le_of_lt hsz) hcopy
    obtain ⟨hf, hcnt, hmem⟩ := kalloc_takes hk
    refine ⟨j, childOf p c kstack, kstack :: t, hj, update_self _ _ _, fun va hva => ?_,
      ⟨?_, fun q hq => ?_, fun q hq => ?_⟩, ?_⟩
    · have hshape := (copyuvm_shape (Nat.le_of_lt hsz) hcopy).2 va (Nat.lt_trans hva hsz)
      rw [if_pos (Nat.lt_of_le_of_lt (Nat.div_mul_le_self va PGSIZE) hva)] at hshape
      change (c.get va).ppn = _
      rw [hshape.2.1]
      rfl
    · rw [hf, ht.free]
      rfl
    · rw [mem_cons, not_or] at hq
      change ph2.refc_cnt q = _
      rw [ht.count q hq.2, hcnt q hq.1]
    · rw [mem_cons, not_or] at hq
      change ph2.mem q = _
      rw [ht.mem q hq.2, hmem]
    · rw [length_cons, hlen]
      omega

/-- The pages of the process are different pages in use. A successful `fork` takes one page for the
kernel stack, one for the directory, 64 for the kernel's tables and one for each table of user memory.
It copies no page, and each user page has one reference more. -/
theorem fork_cost (hsz : p.sz < KERNBASE)
    (hdist : ∀ a < p.sz, ∀ b < p.sz, (p.pgdir.get a).ppn = (p.pgdir.get b).ppn → a / PGSIZE = b / PGSIZE)
    (hused : ∀ va < p.sz, (p.pgdir.get va).ppn ∉ m.phys.freelist) (h : fork ld i p m = .ok (true, m')) :
    ∃ j c taken, m.unused = some j ∧ m'.proc j = some c ∧
      m.phys.freelist = taken ++ m'.phys.freelist ∧ taken.length = 66 + (p.sz + 0x3fffff) / 0x400000 ∧
      (∀ va < p.sz, (c.pgdir.get va).ppn = (p.pgdir.get va).ppn) ∧
      (∀ q, q ∉ taken → m'.phys.mem q = m.phys.mem q) ∧
      ∀ va < p.sz, m'.phys.refc_cnt (p.pgdir.get va).ppn = m.phys.refc_cnt (p.pgdir.get va).ppn + 1 := by
  obtain ⟨j, c, taken, hj, hc, hppn, ht, hlen⟩ := fork_lent hsz h
  refine ⟨j, c, taken, hj, hc, ht.free, hlen, hppn, ht.mem, fun va hva => ?_⟩
  have hq := hused va hva
  rw [ht.free, List.mem_append, not_or] at hq
  rw [ht.count _ hq.1, List.count_eq_one_of_mem (nodup_lentPages hdist) (mem_lentPages hva)]
  rfl

/-- The first process with one page more has two pages in one table, and its `fork` takes 67 pages. -/
theorem fork_cost_two_pages :
    ∃ m m' p, m.proc initproc = some p ∧ p.sz = 0x2000 ∧ fork demoLinker initproc p m = .ok (true, m') ∧
      m.phys.freelist.length = 67 + m'.phys.freelist.length := by
  obtain ⟨m0, m, p, -, -, hinv, hfree, hp, hother, hz, hsz, hmaps, -⟩ :=
    first_growth (c := 1) (n := 0x1000) (by decide) (by decide) (by decide)
  obtain ⟨j, hj⟩ := exists_unused (hother ⟨1, by decide⟩ (by decide))
  have hsz' : p.sz = 0x2000 := hsz
  have hlt : p.sz < KERNBASE := by rw [hsz']; decide
  obtain ⟨m', hf, -⟩ := fork_total hinv hp (fun b hb => (hmaps b hb).1.2.1) hj
    (by rw [hsz']; simp only [PGSIZE]; omega)
  have hw := writes_of_inv hinv hp hz hmaps
  obtain ⟨-, -, taken, -, -, hfr, hlen, -⟩ := fork_cost hlt hw.inj (fun va hva hmem => by
    have hpos := PgDir.userRefs_pos (hmaps va hva).1.2.1 (Nat.lt_trans hva hlt)
    have hzero := (((hinv.frame hp).mem _).mp hmem).2
    simp only [Pi.add_apply] at hzero
    omega) hf
  rw [hsz'] at hlen
  exact ⟨m, m', p, hp, hsz', hf, by rw [hfr, List.length_append, hlen]⟩

/-! ## A `fork` that fails -/

/-- The free list is in order, and every user page of `d` has the references of `d` at least. -/
structure Lendable (ld : Linker) (s : Phys) (d : PgDir) : Prop where
  free : FreeOk ld s
  user : ∀ q, 0 < d.userRefs q → Managed ld q ∧ (d.userRefs q : Int) ≤ s.refc_cnt q

/-- The pages of the allocator that are free or counted. -/
def Lends (ld : Linker) (s : Phys) (q : Nat) : Prop := Managed ld q ∧ (q ∈ s.freelist ∨ 0 < s.refc_cnt q)

open Classical in
/-- The references to a page that are not those of `d`. -/
noncomputable def otherRefs (ld : Linker) (s : Phys) (d : PgDir) (q : Nat) : Nat :=
  if Lends ld s q then (s.refc_cnt q).toNat - d.userRefs q else 0

theorem Lendable.lends (h : Lendable ld s d) {q : Nat} (hq : 0 < d.userRefs q) : Lends ld s q := by
  obtain ⟨hm, hc⟩ := h.user q hq
  exact ⟨hm, .inr (by omega)⟩

theorem Lendable.refs (h : Lendable ld s d) {q : Nat} (hq : Lends ld s q) :
    ((d.userRefs q + otherRefs ld s d q : Nat) : Int) = s.refc_cnt q := by
  rw [otherRefs, if_pos hq]
  by_cases hpos : 0 < d.userRefs q
  · have := (h.user q hpos).2
    omega
  · have hc : 0 ≤ s.refc_cnt q := by
      rcases hq.2 with hf | hc
      · rw [h.free.count q hf]
      · omega
    omega

theorem Lendable.acct (h : Lendable ld s d) :
    Acct (Lends ld s) s 0 (d.userRefs + otherRefs ld s d) where
  inDom q hq := by
    by_contra hc
    have hzero : ¬ 0 < d.userRefs q := fun hpos => hc (h.lends hpos)
    simp only [Pi.zero_apply, Pi.add_apply, otherRefs, if_neg hc] at hq
    omega
  count q hq := by
    rw [← h.refs hq]
    simp
  single _ := Nat.zero_le _
  excl _ hq := absurd hq (Nat.lt_irrefl 0)
  nodup := h.free.nodup
  mem q := by
    simp only [Pi.zero_apply, Pi.add_apply, Nat.zero_add]
    constructor
    · intro hq
      have hl : Lends ld s q := ⟨h.free.managed q hq, .inl hq⟩
      have hrefs := h.refs hl
      rw [h.free.count q hq] at hrefs
      exact ⟨hl, by omega⟩
    · rintro ⟨hl, h0⟩
      have hrefs := h.refs hl
      exact hl.2.resolve_right (by omega)

/-- What a failed `fork` leaves. The parent's memory can be read as before. To write to a page that has
no other user the parent needs no new page, and to write to a shared one it needs one. -/
structure ForkUndone (i : Fin NPROC) (p : Proc) (m m' : Machine) : Prop where
  slots : ∀ k, k ≠ i → m'.proc k = m.proc k
  kernel : m'.kpgdir = m.kpgdir ∧ m'.apstacks = m.apstacks ∧ m'.pipes = m.pipes
  free : m'.phys.freelist.Perm m.phys.freelist
  counts : ∀ q, m'.phys.refc_cnt q = m.phys.refc_cnt q
  parent : ∃ d, m'.proc i = some { p with pgdir := d } ∧
    (∀ va, (d.get va).present = (p.pgdir.get va).present ∧ (d.get va).user = (p.pgdir.get va).user) ∧
    ∀ va < KERNBASE, (p.pgdir.get va).present = true →
      Phys.byte m'.phys d va = Phys.byte m.phys p.pgdir va ∧
      (m.phys.refc_cnt (p.pgdir.get va).ppn ≤ 1 →
        ∃ d', CoW_handler d va m'.phys = .ok (some d', m'.phys) ∧ (d'.get va).writable = true ∧
          Phys.byte m'.phys d' va = Phys.byte m.phys p.pgdir va) ∧
      (1 < m.phys.refc_cnt (p.pgdir.get va).ppn → m.phys.freelist ≠ [] →
        ∃ d' s', CoW_handler d va m'.phys = .ok (some d', s') ∧ (d'.get va).writable = true ∧
          Phys.byte s' d' va = Phys.byte m.phys p.pgdir va)

theorem cow_in_place {va : Nat} (hp : (d.get va).present = true) (hc : s.refc_cnt (d.get va).ppn ≤ 1) :
    ∃ d', CoW_handler d va s = .ok (some d', s) ∧ (d'.get va).writable = true ∧
      Phys.byte s d' va = Phys.byte s d va := by
  refine ⟨_, CoW_handler_alone hp hc, ?_, ?_⟩
  · rw [PgDir.get_set_self (PgDir.hasTab_of_present hp)]
    rfl
  · rw [Phys.byte, PgDir.get_set_self (PgDir.hasTab_of_present hp)]
    rfl

theorem cow_with_copy {va : Nat} (hp : (d.get va).present = true) (hc : 1 < s.refc_cnt (d.get va).ppn)
    (hfree : s.freelist ≠ []) :
    ∃ d' s', CoW_handler d va s = .ok (some d', s') ∧ (d'.get va).writable = true ∧
      Phys.byte s' d' va = Phys.byte s d va := by
  obtain ⟨q, s1, hk, -⟩ := kalloc_total (length_pos_of_ne_nil hfree)
  refine ⟨_, _, CoW_handler_copy hp hc hk, ?_, ?_⟩
  · rw [PgDir.get_set_self (PgDir.hasTab_of_present hp)]
    rfl
  · rw [Phys.byte, PgDir.get_set_self (PgDir.hasTab_of_present hp)]
    change update s1.mem q (s1.mem (d.get va).ppn) q _ = _
    rw [update_self, kalloc_mem hk]
    rfl

theorem forkUndone_of {ph : Phys} (hd : Demoted p.pgdir d) (hfree : ph.freelist.Perm m.phys.freelist)
    (hcnt : ∀ q, ph.refc_cnt q = m.phys.refc_cnt q)
    (hmem : ∀ q, 0 < p.pgdir.userRefs q → ph.mem q = m.phys.mem q) :
    ForkUndone i p m { m.setProc i (some { p with pgdir := d }) with phys := ph } where
  slots k hk := update_of_ne hk _ _
  kernel := ⟨rfl, rfl, rfl⟩
  free := hfree
  counts := hcnt
  parent := by
    refine ⟨d, update_self _ _ _, fun va => ⟨hd.present va, hd.userBit va⟩, fun va hva hp => ?_⟩
    have hp' : (d.get va).present = true := by rw [hd.present, hp]
    have hbyte : Phys.byte ph d va = Phys.byte m.phys p.pgdir va := by
      rw [Phys.byte, hd.ppn, hmem _ (PgDir.userRefs_pos hp hva)]
      rfl
    have hc : ph.refc_cnt (d.get va).ppn = m.phys.refc_cnt (p.pgdir.get va).ppn := by rw [hd.ppn, hcnt]
    refine ⟨hbyte, fun hle => ?_, fun hlt hne => ?_⟩
    · obtain ⟨d', h1, h2, h3⟩ := cow_in_place hp' (by rw [hc]; exact hle)
      exact ⟨d', h1, h2, h3.trans hbyte⟩
    · have hne' : ph.freelist ≠ [] := fun hnil => hne (by rw [hnil] at hfree; exact hfree.nil_eq.symm)
      obtain ⟨d', s', h1, h2, h3⟩ := cow_with_copy hp' (by rw [hc]; exact hlt) hne'
      exact ⟨d', s', h1, h2, h3.trans hbyte⟩

theorem setProc_self (hp : m.proc i = some p) : m.setProc i (some p) = m := by
  have : update m.proc i (some p) = m.proc := by rw [← hp, update_eq_self]
  simp only [Machine.setProc, this]

theorem forkUndone_phys {ph : Phys} (hp : m.proc i = some p) (hfree : ph.freelist.Perm m.phys.freelist)
    (hcnt : ∀ q, ph.refc_cnt q = m.phys.refc_cnt q) (hmem : ∀ q, ph.mem q = m.phys.mem q) :
    ForkUndone i p m { m with phys := ph } := by
  have h := forkUndone_of (i := i) (Demoted.refl p.pgdir) hfree hcnt fun q _ => hmem q
  rwa [show m.setProc i (some { p with pgdir := p.pgdir }) = m from setProc_self hp] at h

theorem forkUndone_fail {kstack : Nat} {pgdir : PgDir} {ph1 ph2 ph3 : Phys} (hsz : p.sz < KERNBASE)
    (hl : Lendable ld m.phys p.pgdir) (hk : kalloc m.phys = .ok (some kstack, ph1))
    (hc : copyuvm ld p.pgdir p.sz ph1 = .ok ((pgdir, none), ph2)) (hf : kfree ld kstack ph2 = .ok ((), ph3)) :
    ForkUndone i p m { m.setProc i (some { p with pgdir := pgdir }) with phys := ph3 } := by
  have ha := hl.acct
  obtain ⟨-, -, hdom, ha1⟩ := acct_kalloc ha hk
  obtain ⟨ha2, hk2, hd⟩ := acct_copyuvm_none (Nat.le_of_lt hsz) ha1 hc
  obtain ⟨ha3, hk3⟩ := acct_kfree_own ha2 hf
  have hkept : CountsKept (Lends ld m.phys) m.phys ph3 := by
    refine CountsKept.trans (fun q hq => ?_)
      ((copyuvm_counts (Nat.le_of_lt hsz) ha1 hc).trans (kfree_counts hdom hf))
    exact (kalloc_takes hk).2.1 q fun heq => hq (heq ▸ hdom)
  refine forkUndone_of hd ?_ (fun q => ?_) fun q hq => ?_
  · exact (perm_ext_iff_of_nodup ha3.nodup ha.nodup).mpr fun q => (ha3.mem q).trans (ha.mem q).symm
  · by_cases hq : Lends ld m.phys q
    · rw [ha3.count q hq, ha.count q hq]
    · exact hkept q hq
  · rw [hk3 q (by simp only [Pi.add_apply]; omega), hk2 q (by simp only [Pi.add_apply]; omega),
      kalloc_mem hk]

theorem fork_runs (hsz : p.sz < KERNBASE) (hl : Lendable ld m.phys p.pgdir)
    (hpres : ∀ va < p.sz, (p.pgdir.get va).present = true) : ∃ r m', fork ld i p m = .ok (r, m') := by
  cases hu : m.unused with
  | none =>
    refine ⟨false, m, ?_⟩
    have halloc : allocproc m = .ok (none, m) := by rw [allocproc, hu]
    exact bind_of_ok halloc
  | some j =>
    obtain ⟨r, ph1, hk⟩ := kalloc_runs m.phys
    cases r with
    | none =>
      have halloc : allocproc m = .ok (none, { m with phys := ph1 }) := by
        rw [allocproc, hu]
        exact bind_of_ok (onPhys_of_ok hk)
      exact ⟨false, _, bind_of_ok halloc⟩
    | some kstack =>
      obtain ⟨-, -, hdom, ha1⟩ := acct_kalloc hl.acct hk
      obtain ⟨pgdir, r, ph2, hc⟩ := copyuvm_runs (Nat.le_of_lt hsz) (fun _ hq => hq.1) hpres ha1
      unfold fork
      rw [bind_of_ok (allocproc_of_ok hu hk)]
      dsimp only
      rw [bind_of_ok (onPhys_of_ok (m := { m with phys := ph1 }) hc)]
      cases r with
      | none =>
        obtain ⟨ph3, hf⟩ := kfree_total hdom.1 ph2
        exact ⟨false, _, (bind_of_ok (a := ()) rfl).trans (bind_of_ok (onPhys_of_ok hf))⟩
      | some d => exact ⟨true, _, rfl⟩

/-- Every failure of `fork` is clean, and `fork` fails when there are too few pages for the child. -/
theorem fork_failure_clean (hp : m.proc i = some p) (hsz : p.sz < KERNBASE)
    (hl : Lendable ld m.phys p.pgdir) :
    (∀ m', fork ld i p m = .ok (false, m') → ForkUndone i p m m') ∧
    ((∀ va < p.sz, (p.pgdir.get va).present = true) →
      m.phys.freelist.length < 66 + (p.sz + 0x3fffff) / 0x400000 → ∃ m', fork ld i p m = .ok (false, m')) := by
  refine ⟨fun m' h => ?_, fun hpres hlen => ?_⟩
  · rcases fork_cases h with ⟨-, rfl⟩ | ⟨ph, hk, -, rfl⟩ |
      ⟨j, kstack, ph1, pgdir, d, ph2, -, hk, hc, ⟨rfl, -, ph3, hf, rfl⟩ | ⟨c, -, hc, -⟩⟩
    · exact forkUndone_phys hp (.refl _) (fun _ => rfl) fun _ => rfl
    · obtain ⟨ht, -⟩ := took_kalloc_none hk
      have hfree : m.phys.freelist = ph.freelist := ht.free
      exact forkUndone_phys hp (by rw [hfree]) (fun q => by simp [ht.count]) fun q => by simp [ht.mem]
    · exact forkUndone_fail hsz hl hk hc hf
    · cases hc
  · obtain ⟨r, m', h⟩ := fork_runs (i := i) hsz hl hpres
    cases r with
    | false => exact ⟨m', h⟩
    | true =>
      obtain ⟨-, -, taken, -, -, -, ht, hlen'⟩ := fork_lent hsz h
      rw [ht.free, List.length_append, hlen', userTabs] at hlen
      omega

/-- A directory that maps page `0x380` at address 0. -/
def onePageDir : PgDir :=
  (PgDir.addTab ⟨0x300, fun _ => none⟩ (pdx 0) 0x301).set 0 (userPerm.pte 0x380)

theorem onePageDir_refs (q : Nat) : onePageDir.userRefs q = one 0x380 q := by
  have hzero : (PgDir.addTab ⟨0x300, fun _ => none⟩ (pdx 0) 0x301).userRefs q = 0 :=
    PgDir.userRefs_eq_zero (fun va _ => by rw [PgDir.get_addTab rfl]; rfl) q
  have hset := PgDir.userRefs_set (e := userPerm.pte 0x380)
    (PgDir.hasTab_addTab ⟨0x300, fun _ => none⟩ 0 0x301) (by decide) q
  rw [hzero, PgDir.get_addTab rfl, PgDir.get_empty, Pte.holds_zero, Pte.holds_of_present rfl] at hset
  rw [Nat.add_zero, Nat.zero_add] at hset
  exact hset

/-- One process with one page, and 10 free pages. -/
def lowMemory : Machine where
  phys := { freshPhys 0x400 10 with refc_cnt := fun q => one 0x380 q }
  kpgdir := ⟨0x310, fun _ => none⟩
  apstacks := []
  proc k := if k = initproc then some ⟨0x1000, onePageDir, 0x302, false⟩ else none
  pipes := []

theorem lendable_lowMemory : Lendable smallKernel lowMemory.phys onePageDir where
  free := by
    have h : FreeOk smallKernel (freshPhys 0x400 10) := freeOk_fresh (by decide) (by decide)
    refine ⟨h.nodup, h.managed, fun q hq => ?_⟩
    have hq' := mem_range'_1.mp hq
    change ((one 0x380 q : Nat) : Int) = 0
    rw [one_of_ne (by omega)]
    rfl
  user q hq := by
    rw [onePageDir_refs] at hq ⊢
    obtain rfl : q = 0x380 := by
      by_contra hc
      rw [one_of_ne hc] at hq
      omega
    exact ⟨⟨by decide, by decide⟩, Int.le_refl _⟩

theorem fork_failure_clean_ten_pages :
    ∃ m', fork smallKernel initproc ⟨0x1000, onePageDir, 0x302, false⟩ lowMemory = .ok (false, m') ∧
      ForkUndone initproc ⟨0x1000, onePageDir, 0x302, false⟩ lowMemory m' := by
  obtain ⟨hclean, hfail⟩ := fork_failure_clean (m := lowMemory) (i := initproc)
    (p := ⟨0x1000, onePageDir, 0x302, false⟩) rfl (by decide) lendable_lowMemory
  obtain ⟨m', h⟩ := hfail (fun va hva => by
    have h0 : va / PGSIZE * PGSIZE = 0 := by
      change va < 0x1000 at hva
      simp only [PGSIZE]
      omega
    change (onePageDir.get va).present = true
    rw [← PgDir.get_page, h0]
    rfl) (by decide)
  exact ⟨m', h, hclean m' h⟩

end Xv6.Sys
