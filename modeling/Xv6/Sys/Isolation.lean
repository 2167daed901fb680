import Xv6.Sys.ExecCall
import Xv6.Sys.Total

/-!
# Processes are kept apart

What code in user mode can reach, and who else can reach it.
-/

open Xv6.Pool Xv6.Run Xv6.Vm

namespace Xv6.Sys

variable {ld : Linker} {m : Machine}

/-- An entry for user mode is below `KERNBASE`, and its page is neither free nor one of the kernel's. A page
that one process can write is in no other entry. -/
structure Isolated (ld : Linker) (m : Machine) : Prop where
  reach : ∀ i p, m.proc i = some p → ∀ va < 0x100000000, (p.pgdir.get va).present = true →
    (p.pgdir.get va).user = true → va < KERNBASE ∧ Managed ld (p.pgdir.get va).ppn ∧
      (p.pgdir.get va).ppn ∉ m.phys.freelist ∧ ¬ m.KernelUse (p.pgdir.get va).ppn
  write : ∀ i p, m.proc i = some p → ∀ va < KERNBASE, (p.pgdir.get va).present = true →
    (p.pgdir.get va).writable = true → ∀ j p', m.proc j = some p' → ∀ va' < KERNBASE,
      (p'.pgdir.get va').present = true → (p'.pgdir.get va').ppn = (p.pgdir.get va).ppn →
      j = i ∧ va' / PGSIZE = va / PGSIZE

theorem Inv.isolated (h : Inv ld m) : Isolated ld m where
  reach i p hp va hva hpres huser := by
    have hlt : va < KERNBASE := by
      by_contra hge
      rw [(h.wf i p hp).kmap va hva (Nat.le_of_not_lt hge)] at huser
      unfold kernelPte at huser
      split_ifs at huser <;> cases huser
    have hsh := shared_pos hp hlt hpres
    refine ⟨hlt, h.acct.inDom _ (by omega), fun hfree => ?_, fun hkern => ?_⟩
    · have hzero := ((h.acct.mem _).mp hfree).2
      omega
    · have hzero := h.acct.excl _ ((own_pos_iff m _).mpr hkern)
      omega
  write i p hp va hva hpres hw j p' hp' va' hva' hpres' hppn := by
    have hone := h.excl i p hp va hva hpres hw
    have hmine := present_userOf hp hva hpres
    rw [shared_eq m i] at hone
    by_cases hji : j = i
    · subst hji
      obtain rfl := Option.some.inj (hp.symm.trans hp')
      refine ⟨rfl, ?_⟩
      by_contra hne
      have htwo := PgDir.two_le_userRefs hpres hva hpres' hva' hppn (Ne.symm hne)
      rw [hp, userOf] at hone
      omega
    · have hother := present_userOf hp' hva' hpres'
      have hle := userOf_le_rest (m := m) hji (p.pgdir.get va).ppn
      rw [hppn] at hother
      omega

end Xv6.Sys
