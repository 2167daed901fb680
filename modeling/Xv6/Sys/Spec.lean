import Xv6.Sys.Code
import Xv6.Vm.Cow

/-!
# What holds of a machine

The references that a machine holds, the accounting that `kmem` has to agree with, and the
invariant of every run.
-/

open Xv6.Cmd Xv6.Pool Xv6.Vm Function Finset

namespace Xv6.Sys

/-! ## References -/

/-- The pages a process has for itself: its kernel stack and its page table. -/
def kernOf (x : Option Proc) (q : Nat) : Nat :=
  match x with
  | some p => one p.kstack q + p.pgdir.kernRefs q
  | none => 0

/-- The user entries of a process that hold `q`. -/
noncomputable def userOf (x : Option Proc) (q : Nat) : Nat :=
  match x with
  | some p => p.pgdir.userRefs q
  | none => 0

/-- The uses of `q` by the kernel. -/
def Machine.own (m : Machine) (q : Nat) : Nat :=
  m.kpgdir.kernRefs q + m.apstacks.count q + (m.pipes.map Pipe.page).count q +
    ∑ i, kernOf (m.proc i) q

/-- The present user entries that hold `q`, over all page directories. -/
noncomputable def Machine.shared (m : Machine) (q : Nat) : Nat :=
  m.kpgdir.userRefs q + ∑ i, userOf (m.proc i) q

/-- `q` is a page directory or a page table of `d`. -/
def InDir (d : PgDir) (q : Nat) : Prop :=
  d.page = q ∨ ∃ i < NPDENTRIES, ∃ t ∈ d.tab i, t.page = q

/-- `q` is in use as a kernel stack, page directory, page table or pipe. -/
def Machine.KernelUse (m : Machine) (q : Nat) : Prop :=
  InDir m.kpgdir q ∨ q ∈ m.apstacks ∨ (∃ pp ∈ m.pipes, pp.page = q) ∨
  ∃ i, ∃ p ∈ m.proc i, p.kstack = q ∨ InDir p.pgdir q

open Classical in
/-- The accounting of the physical pages. -/
structure Accounting (ld : Linker) (m : Machine) : Prop where
  count : ∀ q, Managed ld q →
    m.phys.refc_cnt q = m.shared q + if m.KernelUse q then 1 else 0
  nodup : m.phys.freelist.Nodup
  free : ∀ q, q ∈ m.phys.freelist ↔ Managed ld q ∧ m.phys.refc_cnt q = 0

/-! ## The invariant -/

structure Proc.Wf (ld : Linker) (p : Proc) : Prop where
  sz_lt : p.sz < KERNBASE
  kmap : KernelMap ld p.pgdir
  below : ∀ va < KERNBASE, (p.pgdir.get va).present = true → va / PGSIZE * PGSIZE < p.sz

/-- A page with a writable entry has no other entry. -/
def Machine.Excl (m : Machine) : Prop :=
  ∀ i p, m.proc i = some p → ∀ va < KERNBASE, (p.pgdir.get va).present = true →
    (p.pgdir.get va).writable = true → m.shared (p.pgdir.get va).ppn = 1

def Machine.Started (m : Machine) : Prop := ∃ i p, m.proc i = some p

structure Inv (ld : Linker) (m : Machine) : Prop where
  acct : Acct (Managed ld) m.phys m.own m.shared
  wf : ∀ i p, m.proc i = some p → p.Wf ld
  excl : m.Excl
  /-- Before there is a process, there are pages for the first one. -/
  start : m.Started ∨ 68 ≤ m.phys.freelist.length

variable {ld : Linker} {m m' : Machine}

/-! ## From references to uses -/

theorem kernRefs_pos_iff (d : PgDir) (q : Nat) : 0 < d.kernRefs q ↔ InDir d q := by
  unfold PgDir.kernRefs InDir
  rw [Nat.add_pos_iff_pos_or_pos, sum_pos_iff]
  constructor
  · rintro (h | ⟨i, hi, h⟩)
    · left
      by_contra hc
      rw [one_of_ne (Ne.symm hc)] at h
      omega
    · refine .inr ⟨i, mem_range.mp hi, ?_⟩
      unfold tabRef at h
      split at h
      · next t ht =>
        refine ⟨t, ht, ?_⟩
        by_contra hc
        rw [one_of_ne (Ne.symm hc)] at h
        omega
      · omega
  · rintro (rfl | ⟨i, hi, t, ht, rfl⟩)
    · exact .inl (by simp)
    · refine .inr ⟨i, mem_range.mpr hi, ?_⟩
      have ht' : d.tab i = some t := ht
      simp [tabRef, ht']

theorem kernOf_pos_iff (x : Option Proc) (q : Nat) :
    0 < kernOf x q ↔ ∃ p ∈ x, p.kstack = q ∨ InDir p.pgdir q := by
  cases x with
  | none => simp [kernOf]
  | some p =>
    rw [kernOf, Nat.add_pos_iff_pos_or_pos, kernRefs_pos_iff]
    have hone : 0 < one p.kstack q ↔ p.kstack = q := by
      by_cases h : q = p.kstack
      · simp [h]
      · simp [one_of_ne h, Ne.symm h]
    simp [hone]

theorem own_pos_iff (m : Machine) (q : Nat) : 0 < m.own q ↔ m.KernelUse q := by
  unfold Machine.own Machine.KernelUse
  rw [Nat.add_pos_iff_pos_or_pos, Nat.add_pos_iff_pos_or_pos, Nat.add_pos_iff_pos_or_pos,
    kernRefs_pos_iff, List.count_pos_iff, List.count_pos_iff, sum_pos_iff]
  simp only [mem_univ, true_and, kernOf_pos_iff, List.mem_map, or_assoc]

theorem accounting_of_acct (h : Acct (Managed ld) m.phys m.own m.shared) : Accounting ld m where
  count q hq := by
    have h1 := h.count q hq
    have h2 := h.single q
    have h3 := own_pos_iff m q
    split
    · next hu =>
      have := h3.mpr hu
      omega
    · next hu =>
      have : ¬ 0 < m.own q := fun hc => hu (h3.mp hc)
      omega
  nodup := h.nodup
  free q := by
    rw [h.mem]
    constructor
    · rintro ⟨h1, h2⟩
      have := h.count q h1
      exact ⟨h1, by omega⟩
    · rintro ⟨h1, h2⟩
      have := h.count q h1
      exact ⟨h1, by omega⟩

theorem Inv.accounting (h : Inv ld m) : Accounting ld m := accounting_of_acct h.acct

theorem Inv.count_of_shared {q : Nat} (h : Inv ld m) (hs : 0 < m.shared q) :
    m.phys.refc_cnt q = m.shared q := by
  have hown : m.own q = 0 := by
    by_contra hc
    have := h.acct.excl q (Nat.pos_of_ne_zero hc)
    omega
  have := h.acct.count q (h.acct.inDom q (by omega))
  omega

/-! ## One slot and the rest -/

theorem own_setProc (m : Machine) (i : Fin NPROC) (x : Option Proc) (q : Nat) :
    (m.setProc i x).own q + kernOf (m.proc i) q = m.own q + kernOf x q := by
  have := sum_change Finset.univ (fun j => kernOf (m.proc j) q)
    (fun j => kernOf ((m.setProc i x).proc j) q) i (mem_univ i) (fun j _ hj => by
      simp [Machine.setProc, update_of_ne hj])
  simp only [Machine.setProc, update_self] at this
  simp only [Machine.own, Machine.setProc]
  omega

theorem shared_setProc (m : Machine) (i : Fin NPROC) (x : Option Proc) (q : Nat) :
    (m.setProc i x).shared q + userOf (m.proc i) q = m.shared q + userOf x q := by
  have := sum_change Finset.univ (fun j => userOf (m.proc j) q)
    (fun j => userOf ((m.setProc i x).proc j) q) i (mem_univ i) (fun j _ hj => by
      simp [Machine.setProc, update_of_ne hj])
  simp only [Machine.setProc, update_self] at this
  simp only [Machine.shared, Machine.setProc]
  omega

/-- The references of everybody but slot `i`. -/
def Machine.ownRest (m : Machine) (i : Fin NPROC) : Nat → Nat := (m.setProc i none).own

noncomputable def Machine.sharedRest (m : Machine) (i : Fin NPROC) : Nat → Nat :=
  (m.setProc i none).shared

theorem own_eq (m : Machine) (i : Fin NPROC) (q : Nat) :
    m.own q = m.ownRest i q + kernOf (m.proc i) q := by
  have := own_setProc m i none q
  simp only [kernOf] at this
  simp only [Machine.ownRest, kernOf]
  omega

theorem shared_eq (m : Machine) (i : Fin NPROC) (q : Nat) :
    m.shared q = m.sharedRest i q + userOf (m.proc i) q := by
  have := shared_setProc m i none q
  simp only [userOf] at this
  simp only [Machine.sharedRest, userOf]
  omega

theorem own_setProc_eq (m : Machine) (i : Fin NPROC) (x : Option Proc) (q : Nat) :
    (m.setProc i x).own q = m.ownRest i q + kernOf x q := by
  have h1 := own_setProc m i x q
  have h2 := own_eq m i q
  omega

theorem shared_setProc_eq (m : Machine) (i : Fin NPROC) (x : Option Proc) (q : Nat) :
    (m.setProc i x).shared q = m.sharedRest i q + userOf x q := by
  have h1 := shared_setProc m i x q
  have h2 := shared_eq m i q
  omega

theorem ownRest_of_none {i : Fin NPROC} (h : m.proc i = none) (q : Nat) :
    m.ownRest i q = m.own q := by
  have := own_eq m i q
  rw [h, kernOf] at this
  omega

theorem sharedRest_of_none {i : Fin NPROC} (h : m.proc i = none) (q : Nat) :
    m.sharedRest i q = m.shared q := by
  have := shared_eq m i q
  rw [h, userOf] at this
  omega

theorem Inv.frame {i : Fin NPROC} {p : Proc} (h : Inv ld m) (hp : m.proc i = some p) :
    Acct (Managed ld) m.phys (p.pgdir.kernRefs + (m.ownRest i + one p.kstack))
      (p.pgdir.userRefs + m.sharedRest i) :=
  h.acct.congr
    (fun q => by
      have := own_eq m i q
      simp only [hp, kernOf, Pi.add_apply] at *
      omega)
    (fun q => by
      have := shared_eq m i q
      simp only [hp, userOf, Pi.add_apply] at *
      omega)

theorem present_userOf {x : Option Proc} {p : Proc} {va : Nat} (hx : x = some p) (hva : va < KERNBASE)
    (hp : (p.pgdir.get va).present = true) : 0 < userOf x (p.pgdir.get va).ppn := by
  subst hx
  exact PgDir.userRefs_pos hp hva

theorem userOf_le_rest {i j : Fin NPROC} (h : j ≠ i) (q : Nat) :
    userOf (m.proc j) q ≤ m.sharedRest i q := by
  have hle := single_le_sum (f := fun k => userOf ((m.setProc i none).proc k) q)
    (fun _ _ => Nat.zero_le _) (mem_univ j)
  simp only [Machine.setProc, update_of_ne h] at hle
  simp only [Machine.sharedRest, Machine.shared, Machine.setProc]
  omega

/-! ## Replacing one slot -/

/-- What the new contents `x` of a slot may share, when `sh` are the entries of everybody else:
no page that the old contents `old` did not, and no page that `x` can write. -/
structure Fits (sh : Nat → Nat) (old : Nat → Nat) (x : Option Proc) : Prop where
  others : ∀ q, 0 < sh q → old q = 0 → userOf x q = 0
  mine : ∀ p, x = some p → ∀ va < KERNBASE, (p.pgdir.get va).present = true →
    (p.pgdir.get va).writable = true → sh (p.pgdir.get va).ppn + p.pgdir.userRefs (p.pgdir.get va).ppn = 1

theorem excl_setProc {i : Fin NPROC} {x : Option Proc} (h : m.Excl)
    (hf : Fits (m.sharedRest i) (userOf (m.proc i)) x) : (m.setProc i x).Excl := by
  intro j p hj va hva hp hw
  rw [shared_setProc_eq]
  by_cases hji : j = i
  · subst hji
    have hx : x = some p := by simpa [Machine.setProc] using hj
    have := hf.mine p hx va hva hp hw
    rw [hx, userOf]
    exact this
  · -- A page that another process can write was its own, and stays so.
    have hj' : m.proc j = some p := by simpa [Machine.setProc, update_of_ne hji] using hj
    have hone := h j p hj' va hva hp hw
    have hpos := present_userOf hj' hva hp
    have hle := userOf_le_rest hji (p.pgdir.get va).ppn (m := m)
    rw [shared_eq m i] at hone
    rw [hf.others _ (by omega) (by omega)]
    omega

theorem started_setProc (m : Machine) (i : Fin NPROC) (p : Proc) :
    (m.setProc i (some p)).Started :=
  ⟨i, p, by simp [Machine.setProc]⟩

theorem inv_of_slot {i : Fin NPROC} {x : Option Proc} {ph : Phys}
    (hw : ∀ i p, m.proc i = some p → p.Wf ld) (he : m.Excl)
    (ha : Acct (Managed ld) ph (m.ownRest i + kernOf x) (m.sharedRest i + userOf x))
    (hwf : ∀ p, x = some p → p.Wf ld) (hf : Fits (m.sharedRest i) (userOf (m.proc i)) x)
    (hs : (m.setProc i x).Started) : Inv ld { m.setProc i x with phys := ph } where
  acct := ha.congr (fun q => own_setProc_eq m i x q) (fun q => shared_setProc_eq m i x q)
  wf j p hj := by
    by_cases hji : j = i
    · subst hji
      exact hwf p (by simpa [Machine.setProc] using hj)
    · exact hw j p (by simpa [Machine.setProc, update_of_ne hji] using hj)
  excl := excl_setProc he hf
  start := .inl hs

theorem inv_setProc {i : Fin NPROC} {x : Option Proc} {ph : Phys} (h : Inv ld m)
    (ha : Acct (Managed ld) ph (m.ownRest i + kernOf x) (m.sharedRest i + userOf x))
    (hwf : ∀ p, x = some p → p.Wf ld) (hf : Fits (m.sharedRest i) (userOf (m.proc i)) x)
    (hs : (m.setProc i x).Started) : Inv ld { m.setProc i x with phys := ph } :=
  inv_of_slot h.wf h.excl ha hwf hf hs

theorem inv_setPhys {ph : Phys} {pipes : List Pipe} (h : Inv ld m) (hs : m.Started)
    (ha : Acct (Managed ld) ph ({ m with pipes := pipes } : Machine).own m.shared) :
    Inv ld { m with phys := ph, pipes := pipes } :=
  ⟨ha, h.wf, h.excl, .inl hs⟩

end Xv6.Sys
