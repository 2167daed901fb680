import Xv6.Smp.Code

/-!
# The counts while several CPUs work

Between two steps a CPU may hold a page that no entry shows yet, or no longer shows. Counted with
these, the references agree with `kmem` at every step, except for the pages that the `decr_refc` of
`CoW_handler` has lost: their count is 0 and they are not on the free list.
-/

open Xv6.Pool Xv6.Sys Xv6.Vm Function

namespace Xv6.Smp

/-! ## References in the middle of the work -/

/-- `wait` has freed the kernel stack before `freevm`. -/
def stackRef (p : Proc) (k : After) (q : Nat) : Nat :=
  match k with
  | .growproc _ => one p.kstack q
  | .freevm => 0

/-- The pages that the kernel uses for `p`. A new page is the handler's until `*pte` is set. -/
def jobKern (p : Proc) (j : Job) (q : Nat) : Nat :=
  match j with
  | .memmove _ _ mem | .setPte _ _ mem => one p.kstack q + p.pgdir.kernRefs q + one mem q
  | .dealloc _ _ k | .clear _ _ k => stackRef p k q + p.pgdir.kernRefs q
  | .freeTabs is => tabRefs p.pgdir is q + one p.pgdir.page q
  | .freeDir => one p.pgdir.page q
  | .idle | .getRefc _ _ | .kalloc _ _ | .decrRefc _ | .setWrite _ =>
    one p.kstack q + p.pgdir.kernRefs q

/-- The user pages of `p`. The reference that the handler has replaced lives until its `decr_refc`,
and the one that `deallocuvm` has freed is gone before its entry is. -/
noncomputable def jobUser (p : Proc) (j : Job) (q : Nat) : Nat :=
  match j with
  | .decrRefc pa => p.pgdir.userRefs q + one pa q
  | .clear _ a _ => (p.pgdir.set a .zero).userRefs q
  | .idle | .getRefc _ _ | .kalloc _ _ | .memmove _ _ _ | .setPte _ _ _ | .setWrite _
  | .dealloc _ _ _ | .freeTabs _ | .freeDir => p.pgdir.userRefs q

def slotKern (x : Option Proc) (j : Job) (q : Nat) : Nat :=
  match x with
  | some p => jobKern p j q
  | none => 0

noncomputable def slotUser (x : Option Proc) (j : Job) (q : Nat) : Nat :=
  match x with
  | some p => jobUser p j q
  | none => 0

def Cpus.own (s : Cpus) (q : Nat) : Nat :=
  s.m.kpgdir.kernRefs q + s.m.apstacks.count q + (s.m.pipes.map Pipe.page).count q +
    ∑ i, slotKern (s.m.proc i) (s.job i) q

noncomputable def Cpus.shared (s : Cpus) (q : Nat) : Nat :=
  s.m.kpgdir.userRefs q + ∑ i, slotUser (s.m.proc i) (s.job i) q

/-- The references of everybody but slot `i`. -/
def Cpus.ownRest (s : Cpus) (i : Fin NPROC) : Nat → Nat := (s.put i s.m.phys none .idle).own

noncomputable def Cpus.sharedRest (s : Cpus) (i : Fin NPROC) : Nat → Nat :=
  (s.put i s.m.phys none .idle).shared

variable {ld : Linker} {s : Cpus} {i : Fin NPROC} {p : Proc}

theorem own_put (s : Cpus) (i : Fin NPROC) (ph : Phys) (x : Option Proc) (j : Job) (q : Nat) :
    (s.put i ph x j).own q + slotKern (s.m.proc i) (s.job i) q = s.own q + slotKern x j q := by
  have := sum_change Finset.univ (fun k => slotKern (s.m.proc k) (s.job k) q)
    (fun k => slotKern ((s.put i ph x j).m.proc k) ((s.put i ph x j).job k) q) i
    (Finset.mem_univ i) (fun k _ hk => by
      simp [Cpus.put, Machine.setProc, update_of_ne hk])
  simp only [Cpus.put, Machine.setProc, update_self] at this
  simp only [Cpus.own, Cpus.put, Machine.setProc]
  omega

theorem shared_put (s : Cpus) (i : Fin NPROC) (ph : Phys) (x : Option Proc) (j : Job) (q : Nat) :
    (s.put i ph x j).shared q + slotUser (s.m.proc i) (s.job i) q = s.shared q + slotUser x j q := by
  have := sum_change Finset.univ (fun k => slotUser (s.m.proc k) (s.job k) q)
    (fun k => slotUser ((s.put i ph x j).m.proc k) ((s.put i ph x j).job k) q) i
    (Finset.mem_univ i) (fun k _ hk => by
      simp [Cpus.put, Machine.setProc, update_of_ne hk])
  simp only [Cpus.put, Machine.setProc, update_self] at this
  simp only [Cpus.shared, Cpus.put, Machine.setProc]
  omega

theorem own_eq (s : Cpus) (i : Fin NPROC) (q : Nat) :
    s.own q = s.ownRest i q + slotKern (s.m.proc i) (s.job i) q := by
  have := own_put s i s.m.phys none .idle q
  rw [slotKern, Nat.add_zero] at this
  exact this.symm

theorem shared_eq (s : Cpus) (i : Fin NPROC) (q : Nat) :
    s.shared q = s.sharedRest i q + slotUser (s.m.proc i) (s.job i) q := by
  have := shared_put s i s.m.phys none .idle q
  rw [slotUser, Nat.add_zero] at this
  exact this.symm

theorem quiet_own (h : Quiet s) (q : Nat) : s.own q = s.m.own q := by
  have hslot : ∀ i, slotKern (s.m.proc i) (s.job i) q = kernOf (s.m.proc i) q := by
    intro i
    rw [h i]
    cases s.m.proc i <;> rfl
  simp only [Cpus.own, Machine.own, hslot]

theorem quiet_shared (h : Quiet s) (q : Nat) : s.shared q = s.m.shared q := by
  have hslot : ∀ i, slotUser (s.m.proc i) (s.job i) q = userOf (s.m.proc i) q := by
    intro i
    rw [h i]
    cases s.m.proc i <;> rfl
  simp only [Cpus.shared, Machine.shared, hslot]

/-! ## The invariant -/

/-- The loop of `deallocuvm` for `p` is at `a`. -/
def LoopWf (p : Proc) (oldsz a : Nat) (k : After) : Prop :=
  oldsz ≤ KERNBASE ∧ a % PGSIZE = 0 ∧
    match k with
    | .growproc newsz => newsz ≤ KERNBASE
    | .freevm => oldsz = KERNBASE ∧ ∀ b < KERNBASE, b < a → (p.pgdir.get b).present = false

/-- What the work on the page table of `p` has established. -/
def JobWf (p : Proc) : Job → Prop
  | .getRefc va pa | .kalloc va pa | .memmove va pa _ | .setPte va pa _ =>
    va < KERNBASE ∧ (p.pgdir.get va).present = true ∧ (p.pgdir.get va).ppn = pa
  | .setWrite va => va < KERNBASE ∧ (p.pgdir.get va).present = true
  | .dealloc oldsz a k => LoopWf p oldsz a k
  | .clear oldsz a k => LoopWf p oldsz a k ∧ a < oldsz ∧ (p.pgdir.get a).present = true
  | .freeTabs _ | .freeDir => ∀ va < KERNBASE, (p.pgdir.get va).present = false
  | .idle | .decrRefc _ => True

/-- The managed pages that are not among the lost ones. -/
def Tracked (ld : Linker) (lost : List Nat) (q : Nat) : Prop := Managed ld q ∧ q ∉ lost

structure Inv (ld : Linker) (lost : List Nat) (s : Cpus) : Prop where
  acct : Acct (Tracked ld lost) s.m.phys s.own s.shared
  lost : ∀ q ∈ lost, Managed ld q ∧ s.m.phys.refc_cnt q = 0
  wf : ∀ i p, s.m.proc i = some p → p.sz ≤ KERNBASE ∧ JobWf p (s.job i)

/-- A quiet machine has its accounting exactly when no page is lost. -/
theorem accounting_iff {lost : List Nat} (h : Inv ld lost s) (hq : Quiet s) :
    Accounting ld s.m ↔ lost = [] := by
  constructor
  · intro ha
    by_contra hne
    obtain ⟨q, hq⟩ := List.exists_mem_of_ne_nil _ hne
    have hfree := (ha.free q).mpr (h.lost q hq)
    exact ((h.acct.mem q).mp hfree).1.2 hq
  · rintro rfl
    refine accounting_of_acct (Holds.of_dom (h.acct.congr (fun q => (quiet_own hq q).symm)
      fun q => (quiet_shared hq q).symm) fun q => ?_)
    simp [Tracked]

theorem inv_start {m : Machine} (h : Sys.Inv ld m) : Inv ld [] ⟨m, fun _ => .idle⟩ where
  acct := Holds.of_dom (h.acct.congr (quiet_own fun _ => rfl) (quiet_shared fun _ => rfl))
    fun q => by simp [Tracked]
  lost := by simp
  wf i p hp := ⟨Nat.le_of_lt (h.wf i p hp).sz_lt, trivial⟩

variable {lost : List Nat}

theorem Inv.frame (h : Inv ld lost s) (hp : s.m.proc i = some p) :
    Acct (Tracked ld lost) s.m.phys (s.ownRest i + jobKern p (s.job i))
      (s.sharedRest i + jobUser p (s.job i)) :=
  h.acct.congr
    (fun q => by rw [own_eq s i q, hp]; rfl)
    (fun q => by rw [shared_eq s i q, hp]; rfl)

theorem inv_put {lost' : List Nat} {ph : Phys} {x : Option Proc} {j : Job} (h : Inv ld lost s)
    (ha : Acct (Tracked ld lost') ph (s.ownRest i + slotKern x j) (s.sharedRest i + slotUser x j))
    (hl : ∀ q ∈ lost', Managed ld q ∧ ph.refc_cnt q = 0)
    (hw : ∀ p, x = some p → p.sz ≤ KERNBASE ∧ JobWf p j) : Inv ld lost' (s.put i ph x j) where
  acct := ha.congr
    (fun q => by
      have h1 := own_put s i ph x j q
      have h2 := own_eq s i q
      simp only [Pi.add_apply]
      omega)
    (fun q => by
      have h1 := shared_put s i ph x j q
      have h2 := shared_eq s i q
      simp only [Pi.add_apply]
      omega)
  lost := hl
  wf k p hk := by
    by_cases hki : k = i
    · subst hki
      have hx : x = some p := by simpa [Cpus.put, Machine.setProc] using hk
      simpa [Cpus.put] using hw p hx
    · have hk' : s.m.proc k = some p := by
        simpa [Cpus.put, Machine.setProc, update_of_ne hki] using hk
      simpa [Cpus.put, update_of_ne hki] using h.wf k p hk'

theorem inv_local {p' : Proc} {j : Job} (h : Inv ld lost s) (hp : s.m.proc i = some p)
    (hk : ∀ q, jobKern p' j q = jobKern p (s.job i) q)
    (hu : ∀ q, jobUser p' j q = jobUser p (s.job i) q) (hsz : p'.sz ≤ KERNBASE) (hw : JobWf p' j) :
    Inv ld lost (s.put i s.m.phys (some p') j) :=
  inv_put h ((h.frame hp).congr (fun q => by simp [slotKern, hk]) fun q => by simp [slotUser, hu])
    h.lost fun _ hx => Option.some.inj hx ▸ ⟨hsz, hw⟩

/-! ## Steps that free a page -/

theorem free_some {ph ph' : Phys} {q : Nat} (h : free ld ph q = some ph') :
    kfree ld q ph = .ok ((), ph') := by
  unfold free at h
  cases hk : kfree ld q ph with
  | error e => rw [hk] at h; cases h
  | ok r =>
    rw [hk] at h
    obtain rfl : r.2 = ph' := Option.some.inj h
    rfl

theorem kfree_refc {ph ph' : Phys} {q r : Nat} (h : kfree ld q ph = .ok ((), ph')) (hne : r ≠ q) :
    ph'.refc_cnt r = ph.refc_cnt r := by
  have hset : ∀ n, (ph.setRefc q n).refc_cnt r = ph.refc_cnt r :=
    fun n => update_of_ne hne _ _
  rw [kfree_of_managed (managed_of_kfree h)] at h
  obtain ⟨-, rfl⟩ := Prod.mk.inj (Except.ok.inj h)
  split <;> split <;> simp only [Phys.push, Phys.setMem, hset]

theorem Inv.lost_of_free {ph : Phys} {q : Nat} (h : Inv ld lost s) (hq : Tracked ld lost q)
    (hf : kfree ld q s.m.phys = .ok ((), ph)) (r : Nat) (hr : r ∈ lost) :
    Managed ld r ∧ ph.refc_cnt r = 0 := by
  have hne : r ≠ q := by
    rintro rfl
    exact hq.2 hr
  rw [kfree_refc hf hne]
  exact h.lost r hr

theorem inv_free_own {x : Option Proc} {j : Job} {ph : Phys} {q : Nat} (h : Inv ld lost s)
    (hp : s.m.proc i = some p) (hf : free ld s.m.phys q = some ph)
    (hk : ∀ r, jobKern p (s.job i) r = slotKern x j r + one q r)
    (hu : ∀ r, jobUser p (s.job i) r = slotUser x j r)
    (hw : ∀ p, x = some p → p.sz ≤ KERNBASE ∧ JobWf p j) : Inv ld lost (s.put i ph x j) := by
  have ha : Acct (Tracked ld lost) s.m.phys (s.ownRest i + slotKern x j + one q)
      (s.sharedRest i + slotUser x j) :=
    (h.frame hp).congr (fun r => by simp only [Pi.add_apply, hk r]; omega)
      fun r => by simp only [Pi.add_apply, hu r]
  have hf := free_some hf
  exact inv_put h (acct_kfree_own ha hf).1 (h.lost_of_free (ha.inDom q (by simp)) hf) hw

theorem inv_free_sh {x : Option Proc} {j : Job} {ph : Phys} {q : Nat} (h : Inv ld lost s)
    (hp : s.m.proc i = some p) (hf : free ld s.m.phys q = some ph)
    (hk : ∀ r, jobKern p (s.job i) r = slotKern x j r)
    (hu : ∀ r, jobUser p (s.job i) r = slotUser x j r + one q r)
    (hw : ∀ p, x = some p → p.sz ≤ KERNBASE ∧ JobWf p j) : Inv ld lost (s.put i ph x j) := by
  have ha : Acct (Tracked ld lost) s.m.phys (s.ownRest i + slotKern x j)
      (s.sharedRest i + slotUser x j + one q) :=
    (h.frame hp).congr (fun r => by simp only [Pi.add_apply, hk r])
      fun r => by simp only [Pi.add_apply, hu r]; omega
  have hf := free_some hf
  exact inv_put h (acct_kfree_sh ha hf).1 (h.lost_of_free (ha.inDom q (by simp)) hf) hw

end Xv6.Smp
