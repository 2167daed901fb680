import Xv6.Sys.Total

/-!
# What a page fault may change

`trap` calls `CoW_handler` for every page fault. It is meant for user pages, but it does not look at
`PTE_U`.
-/

open Xv6.Cmd Xv6.Pool Xv6.Run Xv6.Vm Function List

namespace Xv6.Sys

variable {ld : Linker} {s s' : Phys} {m : Machine} {i : Fin NPROC} {p : Proc} {va : Nat}

/-- The indices into `kmem.refc_cnt` that `CoW_handler` and its `kalloc` use. -/
def cowIndices (s : Phys) (d : PgDir) (va : Nat) : List Nat :=
  if (d.get va).present = false then []
  else if 1 < s.refc_cnt (d.get va).ppn then
    (d.get va).ppn :: (s.freelist.take 1 ++ [(d.get va).ppn])
  else [(d.get va).ppn]

/-- Entries of `d` that `d'` has changed. -/
def Changed (d d' : PgDir) (b : Nat) : Prop := b < 0x100000000 ∧ d'.get b ≠ d.get b

/-- A fault of `p` at `va` stays within the user memory of `p`. -/
structure Confined (ld : Linker) (s : Phys) (p : Proc) (va : Nat) : Prop where
  index : ∀ q ∈ cowIndices s p.pgdir va, q < PHYSTOP / PGSIZE
  pte : ∀ d s', CoW_handler p.pgdir va s = .ok (some d, s') → ∀ b, Changed p.pgdir d b →
    b / PGSIZE = va / PGSIZE ∧ b / PGSIZE * PGSIZE < p.sz ∧ (p.pgdir.get b).user = true
  user : ∀ d s', CoW_handler p.pgdir va s = .ok (some d, s') → ∀ b < 0x100000000,
    (d.get b).user = true → (p.pgdir.get b).user = true
  kernel : ∀ d s', CoW_handler p.pgdir va s = .ok (some d, s') → KernelMap ld d
  refc : ∀ d s', CoW_handler p.pgdir va s = .ok (some d, s') → ∀ q,
    s'.refc_cnt q < s.refc_cnt q → ∃ b, Changed p.pgdir d b ∧ (p.pgdir.get b).present = true ∧
      (p.pgdir.get b).user = true ∧ (p.pgdir.get b).ppn = q

/-- What has to hold of the entry `e` for `va`: it is absent or a user entry. The handler also leaves
a kernel entry alone that is already writable and whose page is not shared, and it panics when the
page is shared and there is no memory. -/
def Harmless (s : Phys) (e : Pte) : Prop :=
  e.present = false ∨ e.user = true ∨
  e.ppn < PHYSTOP / PGSIZE ∧ if 1 < s.refc_cnt e.ppn then s.freelist = [] else e.writable = true

instance (s : Phys) (e : Pte) : Decidable (Harmless s e) := by
  unfold Harmless
  infer_instance

theorem user_below (h : Inv ld m) (hp : m.proc i = some p) (hva : va < 0x100000000)
    (hu : (p.pgdir.get va).user = true) : va < KERNBASE := by
  by_contra hc
  rw [(h.wf i p hp).kmap va hva (by omega)] at hu
  unfold kernelPte at hu
  split at hu
  · cases hu
  · split at hu <;> cases hu

theorem confined_of_absent (ha : (p.pgdir.get va).present = false) :
    Confined ld m.phys p va := by
  have hno : ∀ d s', ¬ CoW_handler p.pgdir va m.phys = .ok (some d, s') := by
    intro d s' hc
    rcases CoW_handler_cases hc with ⟨-, hn, -⟩ | ⟨hpr, -⟩ | ⟨hpr, -⟩
    · cases hn
    · rw [ha] at hpr; cases hpr
    · rw [ha] at hpr; cases hpr
  exact ⟨by simp [cowIndices, ha], fun d s' hc => absurd hc (hno d s'),
    fun d s' hc => absurd hc (hno d s'), fun d s' hc => absurd hc (hno d s'),
    fun d s' hc => absurd hc (hno d s')⟩

theorem managed_index {q : Nat} (h : Managed ld q) : q < PHYSTOP / PGSIZE := by
  have := h.2
  simp only [PHYSTOP, PGSIZE] at *
  omega

theorem cow_lowers {own sh : Nat → Nat} {d : PgDir} {r q : Nat} {s1 : Phys}
    (ha : Acct (Managed ld) s (d.kernRefs + own) (d.userRefs + sh)) (hk : kalloc s = .ok (some r, s1))
    (hpr : (d.get va).present = true) (hva : va < KERNBASE)
    (hq : ((s1.setMem r (s1.mem (d.get va).ppn)).setRefc (d.get va).ppn
      (s1.refc_cnt (d.get va).ppn - 1)).refc_cnt q < s.refc_cnt q) :
    r ≠ (d.get va).ppn ∧ q = (d.get va).ppn := by
  obtain ⟨ho, hs, hdom, -⟩ := acct_kalloc ha hk
  have hpos := PgDir.userRefs_pos hpr hva
  simp only [Pi.add_apply] at ho hs
  have hne : r ≠ (d.get va).ppn := by
    rintro rfl
    omega
  refine ⟨hne, ?_⟩
  by_contra hqv
  have hr0 : s.refc_cnt r = 0 := by
    rw [ha.count r hdom]
    simp only [Pi.add_apply]
    omega
  rcases kalloc_cases hk with ⟨hc, -⟩ | ⟨r', rest, hr, -, rfl⟩
  · cases hc
  · obtain rfl := Option.some.inj hr
    change update (update s.refc_cnt r 1) _ _ q < _ at hq
    rw [update_of_ne hqv] at hq
    by_cases hqr : q = r
    · subst hqr
      rw [update_self] at hq
      omega
    · rw [update_of_ne hqr] at hq
      omega

theorem confined_of_user (h : Inv ld m) (hp : m.proc i = some p) (hva : va < 0x100000000)
    (hpr : (p.pgdir.get va).present = true) (hu : (p.pgdir.get va).user = true) :
    Confined ld m.phys p va := by
  have hk := user_below h hp hva hu
  have hwf := h.wf i p hp
  have hframe := h.frame hp
  have htab := PgDir.hasTab_of_present hpr
  have hman : Managed ld (p.pgdir.get va).ppn := by
    refine hframe.inDom _ ?_
    have := PgDir.userRefs_pos hpr hk
    simp only [Pi.add_apply]
    omega
  have hout : ∀ {d s'}, CoW_handler p.pgdir va m.phys = .ok (some d, s') → ∀ b < 0x100000000,
      b / PGSIZE ≠ va / PGSIZE → d.get b = p.pgdir.get b :=
    fun hc => (CoW_handler_unshared hk hframe hc).out
  have hsame : ∀ {b}, b / PGSIZE = va / PGSIZE → p.pgdir.get b = p.pgdir.get va := by
    intro b hb
    rw [← PgDir.get_page _ b, hb, PgDir.get_page]
  have hchanged : ∀ {d s'}, CoW_handler p.pgdir va m.phys = .ok (some d, s') → ∀ b,
      Changed p.pgdir d b → b / PGSIZE = va / PGSIZE := by
    intro d s' hc b hb
    by_contra hne
    exact hb.2 (hout hc b hb.1 hne)
  refine ⟨?_, ?_, ?_, ?_, ?_⟩
  · intro q hq
    unfold cowIndices at hq
    rw [if_neg (by simp [hpr])] at hq
    split at hq
    · simp only [mem_cons, mem_append, mem_singleton, not_mem_nil, or_false] at hq
      rcases hq with rfl | hq | rfl
      · exact managed_index hman
      · exact managed_index ((hframe.mem q).mp (mem_of_mem_take hq)).1
      · exact managed_index hman
    · rw [mem_singleton.mp hq]
      exact managed_index hman
  · intro d s' hc b hb
    have hpg := hchanged hc b hb
    refine ⟨hpg, ?_, by rw [hsame hpg]; exact hu⟩
    rw [hpg]
    exact hwf.below va hk hpr
  · intro d s' hc b hb hbu
    by_cases hpg : b / PGSIZE = va / PGSIZE
    · rw [hsame hpg]
      exact hu
    · rwa [hout hc b hb hpg] at hbu
  · intro d s' hc
    refine hwf.kmap.congr fun b h1 h2 => hout hc b h1 ?_
    simp only [KERNBASE, PGSIZE] at *
    omega
  · intro d s' hc q hq
    rcases CoW_handler_cases hc with ⟨-, hn, -⟩ | ⟨-, -, -, rfl⟩ | ⟨-, -, r, s1, hr, hd, rfl⟩
    · cases hn
    · omega
    · obtain rfl := Option.some.inj hd
      obtain ⟨hne, hlow⟩ := cow_lowers hframe hr hpr hk hq
      refine ⟨va, ⟨hva, ?_⟩, hpr, hu, hlow.symm⟩
      rw [PgDir.get_set_self htab]
      intro hc
      exact hne (congrArg Pte.ppn hc)

theorem not_confined (hva : va < 0x100000000) (hpr : (p.pgdir.get va).present = true)
    (hu : (p.pgdir.get va).user = false) (hh : ¬ Harmless s (p.pgdir.get va)) :
    ¬ Confined ld s p va := by
  intro hc
  have htab := PgDir.hasTab_of_present hpr
  have hidx : (p.pgdir.get va).ppn < PHYSTOP / PGSIZE := by
    refine hc.index _ ?_
    unfold cowIndices
    rw [if_neg (by simp [hpr])]
    split <;> simp
  refine hh (.inr (.inr ⟨hidx, ?_⟩))
  split
  · next hrc =>
    cases hf : s.freelist with
    | nil => rfl
    | cons q rest =>
      obtain ⟨q, s1, hk, -⟩ := kalloc_total (s := s) (by simp [hf])
      have hus := hc.user _ _ (CoW_handler_copy hpr hrc hk) va hva
      rw [PgDir.get_set_self htab, hu] at hus
      cases hus rfl
  · next hrc =>
    by_contra hw
    have hch := hc.pte _ _ (CoW_handler_alone hpr (by omega)) va ⟨hva, ?_⟩
    · rw [hu] at hch
      cases hch.2.2
    · rw [PgDir.get_set_self htab]
      intro heq
      exact hw (congrArg Pte.writable heq).symm

theorem confined_of_harmless (h : Inv ld m) (hp : m.proc i = some p) (hva : va < 0x100000000)
    (hh : Harmless m.phys (p.pgdir.get va)) : Confined ld m.phys p va := by
  have hwf := h.wf i p hp
  cases hpr : (p.pgdir.get va).present with
  | false => exact confined_of_absent hpr
  | true =>
    rcases hh with ha | hu | ⟨hidx, hrest⟩
    · rw [hpr] at ha
      cases ha
    · exact confined_of_user h hp hva hpr hu
    · split at hrest
      · next hrc =>
        -- The handler panics.
        have hno : ∀ d s', ¬ CoW_handler p.pgdir va m.phys = .ok (some d, s') := by
          intro d s' hc
          rcases CoW_handler_cases hc with ⟨-, hn, -⟩ | ⟨-, hle, -⟩ | ⟨-, -, q, s1, hk, -⟩
          · cases hn
          · omega
          · have := kalloc_length hk
            rw [hrest] at this
            simp at this
        refine ⟨fun q hq => ?_, fun d s' hc => absurd hc (hno d s'),
          fun d s' hc => absurd hc (hno d s'), fun d s' hc => absurd hc (hno d s'),
          fun d s' hc => absurd hc (hno d s')⟩
        simp only [cowIndices, hpr, hrc, hrest, Bool.true_eq_false, if_false, if_true, take_nil,
          nil_append, mem_cons, not_mem_nil, or_false, or_self] at hq
        rw [hq]
        exact hidx
      · next hrc =>
        -- The handler sets a bit that is already set.
        have hsame : ∀ d s', CoW_handler p.pgdir va m.phys = .ok (some d, s') →
            (∀ b < 0x100000000, d.get b = p.pgdir.get b) ∧ s' = m.phys := by
          intro d s' hc
          rw [CoW_handler_alone hpr (by omega)] at hc
          obtain ⟨hd, rfl⟩ := Prod.mk.inj (Except.ok.inj hc)
          obtain rfl := Option.some.inj hd
          refine ⟨fun b hb => ?_, rfl⟩
          have heq : (p.pgdir.get va).writeOk = p.pgdir.get va := by
            unfold Pte.writeOk
            rw [← hrest]
          rw [PgDir.get_set (PgDir.hasTab_of_present hpr) hva hb, heq]
          split
          · next hpg => rw [← PgDir.get_page _ b, hpg, PgDir.get_page]
          · rfl
        refine ⟨fun q hq => ?_, fun d s' hc b hb => absurd ((hsame d s' hc).1 b hb.1) hb.2,
          fun d s' hc b hb hu => by rwa [(hsame d s' hc).1 b hb] at hu,
          fun d s' hc => hwf.kmap.congr fun b h1 _ => (hsame d s' hc).1 b h1,
          fun d s' hc q hq => by rw [(hsame d s' hc).2] at hq; omega⟩
        simp only [cowIndices, hpr, hrc, Bool.true_eq_false, if_false, mem_singleton] at hq
        rw [hq]
        exact hidx

theorem confined_iff (h : Inv ld m) (hp : m.proc i = some p) (hva : va < 0x100000000) :
    Confined ld m.phys p va ↔ Harmless m.phys (p.pgdir.get va) := by
  constructor
  · intro hc
    by_contra hh
    have hpr : (p.pgdir.get va).present = true := by
      by_contra ha
      exact hh (.inl (by simpa using ha))
    have hu : (p.pgdir.get va).user = false := by
      by_contra hu
      exact hh (.inr (.inl (by simpa using hu)))
    exact not_confined hva hpr hu hh hc
  · exact confined_of_harmless h hp hva

/-! ## In every run -/

/-- In every state of a run with short arguments, a fault is confined exactly at the addresses whose
entries are harmless. -/
theorem fault_confined_iff {ncpu : Nat} {mem : Nat → Page} {m0 : Machine} {tr : List (Machine × Act)}
    (hboot : boot ld ncpu mem = .ok m0) (hrun : Path (Next (next ld)) m0 tr m)
    (hshort : Meets ShortArgs tr) (hp : m.proc i = some p) (hva : va < 0x100000000) :
    Confined ld m.phys p va ↔ Harmless m.phys (p.pgdir.get va) :=
  confined_iff (inv_along hboot hrun hshort).2 hp hva

/-- A fault in the memory of the first process is confined. -/
theorem fault_confined_iff_at_zero :
    ∃ m0 tr m p, boot demoLinker 1 (fun _ _ => 0) = .ok m0 ∧ Path (Next (next demoLinker)) m0 tr m ∧
      Meets ShortArgs tr ∧ m.proc initproc = some p ∧ p.Maps 0 ∧ Confined demoLinker m.phys p 0 := by
  obtain ⟨m0, tr, m, p, hboot, hrun, -, hshort, hp, hsz, hmaps, -⟩ :=
    growth_run (n := 0x1000) (by decide) (by decide)
  have h0 : p.Maps 0 := hmaps 0 (by rw [hsz]; decide)
  exact ⟨m0, tr, m, p, hboot, hrun, hshort, hp, h0,
    (fault_confined_iff hboot hrun hshort hp (by decide)).mpr (.inr (.inl h0.2.2))⟩

/-- A user-mode access to the kernel's code makes that code writable. -/
theorem kernel_text_fault_not_confined :
    ∃ m0 tr m p, boot demoLinker 1 (fun _ _ => 0) = .ok m0 ∧ Path (Next (next demoLinker)) m0 tr m ∧
      Meets ShortArgs tr ∧ m.proc initproc = some p ∧
      (p.pgdir.get KERNLINK).present = true ∧ (p.pgdir.get KERNLINK).user = false ∧
      ¬ Confined demoLinker m.phys p KERNLINK := by
  obtain ⟨m0, tr, m, p, hboot, hrun, -, hshort, hp, -, -, hfree⟩ :=
    growth_run (n := 0x1000) (by decide) (by decide)
  have hinv := (inv_along hboot hrun hshort).2
  have hget : p.pgdir.get KERNLINK = ⟨0x100, true, false, false⟩ := by
    rw [(hinv.wf initproc p hp).kmap KERNLINK (by decide) (by decide)]
    decide
  refine ⟨m0, tr, m, p, hboot, hrun, hshort, hp, by rw [hget], by rw [hget], ?_⟩
  rw [confined_iff hinv hp (by decide), hget]
  rintro (hc | hc | ⟨-, hc⟩)
  · cases hc
  · cases hc
  · split at hc
    · exact hfree hc
    · cases hc

end Xv6.Sys
