import Xv6.Kalloc.Count
import Xv6.Sys.Total

/-!
# Runs of the allocator

Along which runs from power-on the count of free pages is exact, and the run that takes every page
and then asks for one more.
-/

open Xv6.Link Xv6.Run

namespace Xv6.Kalloc

variable {ld : Vm.Linker} {s s' : Kmem} {l : List Nat} {p : Nat}

/-- Along a run from power-on, `countfp` reports the length of the free list in every state exactly
when no step of the run takes from an empty list or frees a free page. -/
theorem freecnt_exact_iff {next : Nat → Option Nat} {tr : List (Kmem × Option Call)}
    (hrun : Path (Step ld) (powerOn next) tr s) : Along Exact tr s ↔ Meets CallOk tr :=
  along_iff_meets (fun _ ⟨l, h⟩ => ⟨l, h.chain, h.count⟩) (fun _ _ _ h hok hs => counted_step h hok hs)
    (fun _ _ _ h hbad hs => not_exact_step h hbad hs) hrun ⟨[], counted_powerOn next⟩

/-! ## `main` gives the allocator its pages -/

theorem freeLoop_total {vend n : Nat} (hal : p % PGSIZE = 0) (hend : ld.endAddr ≤ p)
    (htop : vend ≤ KERNBASE + PHYSTOP) (hp : p ≤ KERNBASE + PHYSTOP)
    (hn : vend < p + (n + 1) * PGSIZE) (s : Kmem) : ∃ s', freeLoop ld vend (n + 1) p s = some s' := by
  have hnext : u32 (p + PGSIZE) = p + PGSIZE :=
    u32_of_lt (by simp only [KERNBASE, PHYSTOP, PGSIZE] at *; omega)
  induction n generalizing p s with
  | zero =>
    refine ⟨s, ?_⟩
    rw [freeLoop, if_neg (by rw [hnext]; omega)]
  | succ n ih =>
    rw [freeLoop, hnext]
    split
    · next hle =>
      have hacc : Accepts ld p := by
        have h1 := ld.text_lt
        have h2 := ld.data_le
        refine ⟨hal, hend, ?_⟩
        simp only [V2P, u32, KERNBASE, PHYSTOP, PGSIZE, KERNLINK] at *
        omega
      rw [kfree, if_pos hacc, Option.bind_some]
      have hp' : p + PGSIZE ≤ KERNBASE + PHYSTOP := Nat.le_trans hle htop
      exact ih (by simp only [PGSIZE] at *; omega) (by omega) hp' (by simp only [PGSIZE] at *; omega) _
        (u32_of_lt (by simp only [KERNBASE, PHYSTOP, PGSIZE] at *; omega))
    · exact ⟨s, rfl⟩

theorem freerange_total {vstart vend : Nat} (hend : ld.endAddr ≤ vstart) (hle : vstart ≤ KERNBASE + PHYSTOP)
    (htop : vend ≤ KERNBASE + PHYSTOP) (s : Kmem) : ∃ s', freerange ld vstart vend s = some s' := by
  have hround : vstart ≤ pgroundup vstart ∧ pgroundup vstart ≤ KERNBASE + PHYSTOP := by
    simp only [pgroundup, u32, KERNBASE, PHYSTOP, PGSIZE] at *
    omega
  unfold freerange
  refine freeLoop_total (n := 0xfffff) (pgroundup_mod _) (Nat.le_trans hend hround.1) htop hround.2 ?_ s
  simp only [KERNBASE, PHYSTOP, PGSIZE] at *
  omega

/-- The two calls of `main`. -/
def bootCalls (ld : Vm.Linker) : List (Option Call) :=
  [some (.kinit1 (UInt32.ofNat ld.endAddr) 0x80400000), some (.kinit2 0x80400000 0x8e000000)]

theorem boot_run {ld : Vm.Linker} (hend : ld.endAddr ≤ KERNBASE + 0x400000) (next : Nat → Option Nat) :
    ∃ s tr l, Path (Step ld) (powerOn next) tr s ∧ tr.map Prod.snd = bootCalls ld ∧ Meets CallOk tr ∧
      Counted s l ∧ s.freelist ≠ none := by
  have htext := Nat.lt_of_lt_of_le ld.text_lt ld.data_le
  have hnat : (UInt32.ofNat ld.endAddr).toNat = ld.endAddr := by
    rw [UInt32.toNat_ofNat']
    exact Nat.mod_eq_of_lt (by simp only [KERNBASE] at hend; omega)
  obtain ⟨s1, h1⟩ : ∃ s1, freerange ld ld.endAddr 0x80400000
      ({ powerOn next with freecnt := 0 } : Kmem) = some s1 :=
    freerange_total (Nat.le_refl _) (by simp only [KERNBASE, PHYSTOP] at *; omega) (by decide) _
  obtain ⟨s2, h2⟩ : ∃ s2, freerange ld 0x80400000 0x8e000000 s1 = some s2 :=
    freerange_total hend (by decide) (by decide) s1
  obtain ⟨ps1, hps1, hmem1⟩ := freerange_prepended (by decide) h1
  obtain ⟨ps2, hps2, hmem2⟩ := freerange_prepended (by decide) h2
  have hc1 : Counted s1 (ps1 ++ []) := hps1.counted ⟨rfl, rfl, by simp⟩ (by simp)
  rw [List.append_nil] at hc1
  -- The two ranges have no page in common.
  have hdis : ∀ q, InRange (pgroundup 0x80400000) 0x8e000000 q → q ∉ ps1 := by
    rintro q ⟨v, -, hv1, hv2, rfl⟩ hq
    obtain ⟨w, -, hw1, hw2, heq⟩ := (hmem1 _).mp hq
    simp only [pgroundup, pageOf, V2P, u32, KERNBASE, PGSIZE, KERNLINK] at *
    omega
  have hc2 := hps2.counted hc1 fun q hq => hdis q ((hmem2 q).mp hq)
  have hfirst : pageOf (V2P 0x80400000) ∈ ps2 :=
    (hmem2 _).mpr ⟨0x80400000, by decide, by decide, by decide, rfl⟩
  have e1 : Step ld (powerOn next) (some (.kinit1 (UInt32.ofNat ld.endAddr) 0x80400000)) s1 :=
    .call _ (by rw [call, kinit1, hnat]; exact h1)
  have e2 : Step ld s1 (some (.kinit2 0x80400000 0x8e000000)) s2 :=
    .call _ (by rw [call, kinit2]; exact h2)
  refine ⟨s2, [(powerOn next, _), (s1, _)], ps2 ++ ps1, .cons e1 (.cons e2 (.nil _)), rfl, ?_, hc2, ?_⟩
  · intro x hx
    rcases List.mem_pair.mp hx with rfl | rfl
    · rfl
    · intro q hq hfree
      exact hdis q hq (hc1.free_iff.mp hfree)
  · intro hnone
    have := hc2.chain.nil_iff.mp hnone
    rw [List.append_eq_nil_iff.mp this |>.1] at hfirst
    cases hfirst

/-! ## More calls of `kalloc` than pages -/

theorem drain_run (ld : Vm.Linker) (h : Counted s l) :
    ∃ s' tr, Path (Step ld) s tr s' ∧ tr.map Prod.snd = List.replicate l.length (some .kalloc) ∧
      Counted s' [] := by
  induction l generalizing s with
  | nil => exact ⟨s, [], .nil _, rfl, h⟩
  | cons r l ih =>
    have hr : s.freelist = some r := h.chain.1
    obtain ⟨l', hl'⟩ := counted_kalloc h (by rw [hr]; simp)
    have hrest : Chain (kalloc s).next (kalloc s).freelist l := by
      rw [kalloc_some hr]
      exact h.chain.2
    obtain rfl := hl'.chain.unique hrest
    obtain ⟨s', tr, hp, htr, hc⟩ := ih hl'
    exact ⟨s', (s, some .kalloc) :: tr, .cons (.call .kalloc rfl) hp, by simp [htr, List.replicate_succ], hc⟩

/-- After the two calls of `main` and one of `kalloc`, the count is right. -/
theorem freecnt_exact_after_kalloc :
    ∃ tr s, Path (Step Sys.demoLinker) (powerOn fun _ => none) tr s ∧
      tr.map Prod.snd = bootCalls Sys.demoLinker ++ [some .kalloc] ∧ Along Exact tr s := by
  obtain ⟨s, tr, l, hrun, htr, hok, -, hne⟩ := boot_run (by decide : Sys.demoLinker.endAddr ≤ _) fun _ => none
  have hrun' : Path (Step Sys.demoLinker) (powerOn fun _ => none) (tr ++ [(s, some .kalloc)]) (kalloc s) :=
    hrun.snoc (.call .kalloc rfl)
  exact ⟨_, _, hrun', by simp [htr], (freecnt_exact_iff hrun').mpr ((meets_snoc _ _ _ _).mpr ⟨hok, hne⟩)⟩

/-- With every page taken, one more `kalloc` fails and takes the count from 0 to `2 ^ 32 - 1`. -/
theorem failed_kalloc_drifts :
    ∃ n tr s, Path (Step Sys.demoLinker) (powerOn fun _ => none) tr s ∧
      tr.map Prod.snd = bootCalls Sys.demoLinker ++ List.replicate (n + 1) (some .kalloc) ∧
      s.freelist = none ∧ countfp s = 0xffffffff ∧ ¬ Exact s := by
  obtain ⟨s1, tr1, l, hrun1, htr1, -, hc1, -⟩ := boot_run (by decide : Sys.demoLinker.endAddr ≤ _) fun _ => none
  obtain ⟨s2, tr2, hrun2, htr2, hc2⟩ := drain_run Sys.demoLinker hc1
  have hnone : s2.freelist = none := hc2.chain
  have hzero : s2.freecnt = 0 := UInt32.toNat_inj.mp hc2.count
  refine ⟨l.length, _, kalloc s2, (hrun1.trans hrun2).snoc (.call .kalloc rfl), ?_, ?_, ?_,
    not_exact_kalloc hc2 hnone⟩
  · simp [htr1, htr2, List.replicate_succ']
  · rw [kalloc_none hnone]
    exact hnone
  · rw [kalloc_none hnone, countfp, hzero]
    rfl

end Xv6.Kalloc
