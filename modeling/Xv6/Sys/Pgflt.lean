import Xv6.Sys.ForkCost

/-!
# Page faults in user mode

`trap` hands every page fault to `CoW_handler`, which does not ask what the access was and whether
the page is a user page. After a fault on a page without `PTE_U` that has one reference, the same
access faults again, for ever.
-/

open Xv6.Cmd Xv6.Vm Function

namespace Xv6.Sys

variable {ld : Linker} {d : PgDir} {m m' : Machine} {i : Fin NPROC} {p : Proc} {va : Nat} {killed write : Bool}

/-- The page table lets user code read at `va`, or write there. -/
def Allows (d : PgDir) (va : Nat) (write : Bool) : Prop :=
  (d.get va).present = true ∧ (d.get va).user = true ∧ (write = true → (d.get va).writable = true)

/-- `trap` for a page fault in user mode, where `killed` is the flag of the process after the handler.
The counts end at `PHYSTOP`: for a device page `CoW_handler` reads and writes other memory of the kernel. -/
def trap (i : Fin NPROC) (p : Proc) (va : Nat) (killed : Bool) : M Unit :=
  if (p.pgdir.get va).present = true ∧ PHYSTOP ≤ (p.pgdir.get va).ppn * PGSIZE then throw .wild
  else do
    fault i p va
    fun m =>
      match m.proc i with
      | none => .ok ((), m)
      | some p => if killed = true ∧ p.zombie = false then exit i p m else .ok ((), m)

/-- The process is gone, or the access is allowed now. -/
def Resolved (i : Fin NPROC) (p : Proc) (va : Nat) (write killed : Bool) (m : Machine) : Prop :=
  ∃ m' p', trap i p va killed m = .ok ((), m') ∧ m'.proc i = some p' ∧
    (p'.zombie = true ∨ Allows p'.pgdir va write)

/-- What a fault has to meet. A process that is not `init` may exit. For a shared page there is a free
page, and any other page is a user page, unless the process has been killed. -/
def Resolvable (i : Fin NPROC) (p : Proc) (va : Nat) (killed : Bool) (m : Machine) : Prop :=
  if (p.pgdir.get va).present = true then
    (p.pgdir.get va).ppn * PGSIZE < PHYSTOP ∧ (killed = true → i ≠ initproc) ∧
    if 1 < m.phys.refc_cnt (p.pgdir.get va).ppn then m.phys.freelist ≠ []
    else (p.pgdir.get va).user = true ∨ killed = true
  else i ≠ initproc

/-! ## The cases of the handler -/

theorem exit_of_ne (hi : i ≠ initproc) :
    exit i p m = .ok ((), m.setProc i (some { p with zombie := true })) := by
  rw [exit, if_neg hi]
  rfl

theorem exit_error (e : i = initproc) : exit i p m = .error (.panic "init exiting") := by
  rw [exit, if_pos e]
  rfl

theorem CoW_handler_absent (hpr : ¬ (d.get va).present = true) (s : Phys) :
    CoW_handler d va s = .ok (none, s) := by
  rw [CoW_handler, if_pos (.inr (by simpa using hpr))]
  rfl

theorem resolved_absent (hpr : ¬ (p.pgdir.get va).present = true) (hz : p.zombie = false) :
    Resolved i p va write killed m ↔ i ≠ initproc := by
  have hfault : fault i p va m = exit i p m := by
    rw [fault, bind_of_ok (onPhys_of_ok (CoW_handler_absent hpr m.phys))]
  constructor
  · rintro ⟨m', p', h, -⟩ hi
    rw [trap, if_neg fun hc => hpr hc.1, bind_of_error (hfault.trans (exit_error hi))] at h
    cases h
  · intro hi
    refine ⟨m.setProc i (some { p with zombie := true }), { p with zombie := true }, ?_,
      update_self i _ m.proc, .inl rfl⟩
    rw [trap, if_neg fun hc => hpr hc.1, bind_of_ok (hfault.trans (exit_of_ne hi))]
    simp only [Machine.setProc, update_self, Bool.true_eq_false, and_false, if_false]

theorem trap_handled {ph : Phys} (hz : p.zombie = false) (hlt : (p.pgdir.get va).ppn * PGSIZE < PHYSTOP)
    (hc : CoW_handler p.pgdir va m.phys = .ok (some d, ph)) :
    trap i p va killed m = if killed = true then
        exit i { p with pgdir := d } { m.setProc i (some { p with pgdir := d }) with phys := ph }
      else .ok ((), { m.setProc i (some { p with pgdir := d }) with phys := ph }) := by
  have hfault : fault i p va m = .ok ((), { m.setProc i (some { p with pgdir := d }) with phys := ph }) := by
    rw [fault, bind_of_ok (onPhys_of_ok hc)]
    rfl
  rw [trap, if_neg fun h => Nat.not_le_of_lt hlt h.2, bind_of_ok hfault]
  simp only [Machine.setProc, update_self, hz, and_true]

theorem resolved_handled {ph : Phys} (hz : p.zombie = false)
    (hlt : (p.pgdir.get va).ppn * PGSIZE < PHYSTOP)
    (hc : CoW_handler p.pgdir va m.phys = .ok (some d, ph)) :
    Resolved i p va write killed m ↔ (killed = true → i ≠ initproc) ∧ (Allows d va write ∨ killed = true) := by
  have htrap : trap i p va killed m = _ := trap_handled hz hlt hc
  cases killed with
  | false =>
    rw [if_neg Bool.false_ne_true] at htrap
    constructor
    · rintro ⟨m', p', h, hp', hout⟩
      rw [htrap] at h
      obtain ⟨-, rfl⟩ := Prod.mk.inj (Except.ok.inj h)
      obtain rfl : { p with pgdir := d } = p' :=
        Option.some.inj ((update_self i _ m.proc).symm.trans hp')
      refine ⟨fun h => (Bool.false_ne_true h).elim, .inl (hout.resolve_left fun h => ?_)⟩
      rw [show p.zombie = true from h] at hz
      cases hz
    · rintro ⟨-, hall | hk⟩
      · exact ⟨_, _, htrap, update_self i _ m.proc, .inr hall⟩
      · cases hk
  | true =>
    rw [if_pos rfl] at htrap
    constructor
    · rintro ⟨m', p', h, -⟩
      refine ⟨fun _ hi => ?_, .inr rfl⟩
      rw [htrap, exit_error hi] at h
      cases h
    · rintro ⟨hi, -⟩
      refine ⟨_, { p with pgdir := d, zombie := true }, htrap.trans (exit_of_ne (hi rfl)), ?_, .inl rfl⟩
      exact update_self i _ _

theorem CoW_handler_panics {s : Phys} (hpr : (d.get va).present = true) (hc : 1 < s.refc_cnt (d.get va).ppn)
    (hfree : s.freelist = []) : CoW_handler d va s = .error (.panic "pagefault: kalloc failed") := by
  obtain ⟨r, s1, hk⟩ := kalloc_runs s
  obtain rfl : r = none := by
    rcases kalloc_cases hk with ⟨rfl, -⟩ | ⟨q, rest, -, hq, -⟩
    · rfl
    · rw [hfree] at hq
      cases hq
  have hget : get_refc (d.get va).ppn s = .ok (s.refc_cnt (d.get va).ppn, s) := rfl
  unfold CoW_handler
  rw [if_neg (has_page hpr)]
  dsimp only
  rw [bind_of_ok hget, if_pos hc, bind_of_ok hk]
  rfl

theorem not_resolved_error {e : Stop} (hc : CoW_handler p.pgdir va m.phys = .error e) :
    ¬ Resolved i p va write killed m := by
  rintro ⟨m', p', h, -⟩
  have hfault : fault i p va m = .error e := by
    rw [fault, bind_of_error]
    simp [onPhys, zoom, hc]
  rw [trap] at h
  split at h
  · cases h
  · rw [bind_of_error hfault] at h
    cases h

/-- The fault is resolved exactly when it can be. -/
theorem fault_resolved_iff (hz : p.zombie = false) :
    Resolved i p va write killed m ↔ Resolvable i p va killed m := by
  rw [Resolvable]
  by_cases hpr : (p.pgdir.get va).present = true
  · have htab := PgDir.hasTab_of_present hpr
    rw [if_pos hpr]
    by_cases hlt : (p.pgdir.get va).ppn * PGSIZE < PHYSTOP
    · rw [and_iff_right hlt]
      by_cases hshared : 1 < m.phys.refc_cnt (p.pgdir.get va).ppn
      · rw [if_pos hshared]
        by_cases hfree : m.phys.freelist = []
        · exact iff_of_false (not_resolved_error (CoW_handler_panics hpr hshared hfree)) fun h => h.2 hfree
        · obtain ⟨q, s1, hk, -⟩ := kalloc_total (List.length_pos_of_ne_nil hfree)
          rw [resolved_handled hz hlt (CoW_handler_copy hpr hshared hk), Allows, PgDir.get_set_self htab]
          simp [cowPte, hfree]
      · rw [if_neg hshared, resolved_handled hz hlt (CoW_handler_alone hpr (by omega)), Allows,
          PgDir.get_set_self htab]
        simp [Pte.writeOk, hpr]
    · refine iff_of_false ?_ fun h => hlt h.1
      rintro ⟨m', p', h, -⟩
      rw [trap, if_pos ⟨hpr, Nat.le_of_not_lt hlt⟩] at h
      cases h
  · rw [if_neg hpr]
    exact resolved_absent hpr hz

/-- A process without page `0x5000` that reads there is gone afterwards. -/
theorem fault_resolved_absent_page :
    Resolved ⟨1, by decide⟩ ⟨0x1000, onePageDir, 0x302, false⟩ 0x5000 false false lowMemory :=
  (fault_resolved_iff (p := ⟨0x1000, onePageDir, 0x302, false⟩) rfl).mpr (by
    rw [Resolvable, if_neg (by decide)]
    decide)

/-! ## An access that faults for ever -/

theorem kstack_entry (h : Inv ld m) (hp : m.proc i = some p) :
    p.kstack * PGSIZE < PHYSTOP ∧ m.phys.refc_cnt p.kstack = 1 ∧
    ∃ w, p.pgdir.get (KERNBASE + p.kstack * PGSIZE) = { ppn := p.kstack, present := true, writable := w, user := false } := by
  have hpos : 0 < m.own p.kstack := by
    have hk : 0 < kernOf (m.proc i) p.kstack := (kernOf_pos_iff _ _).mpr ⟨p, hp, .inl rfl⟩
    have := own_eq m i p.kstack
    omega
  have hm := h.acct.inDom p.kstack (by omega)
  have hone := h.acct.single p.kstack
  have hsh := h.acct.excl p.kstack hpos
  have hcount := h.acct.count p.kstack hm
  have hlt : p.kstack * PGSIZE < PHYSTOP := hm.2
  have hva : KERNBASE + p.kstack * PGSIZE < 0x100000000 := by
    simp only [KERNBASE, PHYSTOP] at *
    omega
  refine ⟨hlt, by omega, ?_⟩
  rw [(h.wf i p hp).kmap _ hva (Nat.le_add_right _ _), kernelPte,
    if_pos ⟨Nat.le_add_right _ _, Nat.add_lt_add_left hlt _⟩, Nat.add_sub_cancel_left,
    Nat.mul_div_cancel _ (by decide)]
  exact ⟨_, rfl⟩

/-- The first process reads its kernel stack. The fault is taken, the page stays out of its reach, and the process
runs on to the same access. -/
theorem kernel_read_faults_again :
    ∃ m0 m p m' p', boot demoLinker 1 (fun _ _ => 0) = .ok m0 ∧ next demoLinker m0 (.userinit []) = some m ∧
      m.proc initproc = some p ∧ ¬ Allows p.pgdir (KERNBASE + p.kstack * PGSIZE) false ∧
      trap initproc p (KERNBASE + p.kstack * PGSIZE) false m = .ok ((), m') ∧ m'.proc initproc = some p' ∧
      p'.zombie = false ∧ ¬ Allows p'.pgdir (KERNBASE + p.kstack * PGSIZE) false ∧
      ¬ Resolved initproc p (KERNBASE + p.kstack * PGSIZE) false false m := by
  obtain ⟨m0, m, d, kstack, hboot, hn, hinv, -, hp, -⟩ := first_process (c := 1) (by decide)
  obtain ⟨p, hz, hfirst⟩ : ∃ p : Proc, p.zombie = false ∧ firstProc d kstack = p := ⟨_, rfl, rfl⟩
  rw [hfirst] at hp
  obtain ⟨hlt, hone, w, hentry⟩ := kstack_entry hinv hp
  have hpr : (p.pgdir.get (KERNBASE + p.kstack * PGSIZE)).present = true := by rw [hentry]
  have hpage : (p.pgdir.get (KERNBASE + p.kstack * PGSIZE)).ppn = p.kstack := by rw [hentry]
  have hrange : (p.pgdir.get (KERNBASE + p.kstack * PGSIZE)).ppn * PGSIZE < PHYSTOP := by rw [hpage]; exact hlt
  have hcow := CoW_handler_alone (s := m.phys) hpr (by rw [hpage, hone])
  have hbefore : ¬ Allows p.pgdir (KERNBASE + p.kstack * PGSIZE) false := by
    rintro ⟨-, hu, -⟩
    rw [hentry] at hu
    cases hu
  have hafter : ¬ Allows (p.pgdir.set (KERNBASE + p.kstack * PGSIZE)
      (p.pgdir.get (KERNBASE + p.kstack * PGSIZE)).writeOk) (KERNBASE + p.kstack * PGSIZE) false := by
    rintro ⟨-, hu, -⟩
    rw [PgDir.get_set_self (PgDir.hasTab_of_present hpr), hentry] at hu
    cases hu
  refine ⟨m0, m, p, _, _, hboot, hn, hp, hbefore,
    (trap_handled hz hrange hcow).trans (if_neg Bool.false_ne_true),
    Function.update_self initproc _ m.proc, hz, hafter, fun h => ?_⟩
  rcases ((resolved_handled hz hrange hcow).mp h).2 with h | h
  · exact hafter h
  · cases h

end Xv6.Sys
