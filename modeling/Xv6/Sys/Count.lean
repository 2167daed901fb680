import Xv6.Sys.Conserve
import Xv6.Sys.Size

/-!
# Counting pages

`countvp` rounds the size down to pages and `countpp` counts the entries below it, the last one too
when the size ends inside its page.
-/

open Xv6.Cmd Xv6.Run Xv6.Vm Finset

namespace Xv6.Sys

variable {ld : Linker} {d : PgDir} {m : Machine} {i : Fin NPROC} {p : Proc} {sz : Nat}

def PGSHIFT : Nat := 12

def NPTENTRIES : Nat := 1024

/-- `countvp`. -/
def countvp (p : Proc) : Nat := p.sz >>> PGSHIFT

/-- The inner loop of `countpp`, over the entries `js` of the table of slot `i`. The flag says that the
function returns from here. -/
def countTab (sz i : Nat) (t : PgTab) : List Nat → Nat → Nat × Bool
  | [], ret => (ret, false)
  | j :: js, ret =>
    if sz ≤ u32 ((i * NPDENTRIES + j) * PGSIZE) then (ret, true)
    else countTab sz i t js (if (t.entry j).present then ret + 1 else ret)

/-- The outer loop of `countpp`. -/
def countDir (d : PgDir) (sz : Nat) : List Nat → Nat → Nat
  | [], ret => ret
  | i :: is, ret =>
    match d.tab i with
    | none => countDir d sz is ret
    | some t =>
      let r := countTab sz i t (List.range NPTENTRIES) ret
      if r.2 then r.1 else countDir d sz is r.1

/-- `countpp`. A process always has a directory here. -/
def countpp (p : Proc) : Nat := countDir p.pgdir p.sz (List.range NPDENTRIES) 0

/-! ## What `countpp` counts -/

/-- Page `v` starts below `sz` and is there. -/
def Counted (d : PgDir) (sz v : Nat) : Prop := v * PGSIZE < sz ∧ (d.get (v * PGSIZE)).present = true

instance (d : PgDir) (sz : Nat) : DecidablePred (Counted d sz) := fun _ => inferInstanceAs (Decidable (_ ∧ _))

theorem count_beyond {a b : Nat} (ha : sz ≤ a * PGSIZE) (hab : a ≤ b) :
    Nat.count (Counted d sz) b = Nat.count (Counted d sz) a := by
  obtain ⟨k, rfl⟩ := Nat.exists_eq_add_of_le hab
  rw [Nat.count_add, Nat.add_eq_left, Nat.count_iff_forall_not]
  rintro k - ⟨hlt, -⟩
  have := Nat.mul_le_mul_right PGSIZE (Nat.le_add_right a k)
  omega

theorem pdx_slot {i j : Nat} (hi : i < NPDENTRIES) (hj : j < NPTENTRIES) :
    pdx ((i * NPDENTRIES + j) * PGSIZE) = i := by
  simp only [pdx, PGSIZE, NPDENTRIES, NPTENTRIES] at *
  omega

theorem ptx_slot {i j : Nat} (hj : j < NPTENTRIES) : ptx ((i * NPDENTRIES + j) * PGSIZE) = j := by
  simp only [ptx, PGSIZE, NPDENTRIES, NPTENTRIES] at *
  omega

theorem counted_slot {i j : Nat} {t : PgTab} (ht : d.tab i = some t) (hi : i < NPDENTRIES)
    (hj : j < NPTENTRIES) :
    Counted d sz (i * NPDENTRIES + j) ↔ (i * NPDENTRIES + j) * PGSIZE < sz ∧ (t.entry j).present = true := by
  simp only [Counted, PgDir.get, pdx_slot hi hj, ptx_slot hj, ht]

theorem not_counted_slot {i j : Nat} (ht : d.tab i = none) (hi : i < NPDENTRIES) (hj : j < NPTENTRIES) :
    ¬ Counted d sz (i * NPDENTRIES + j) := by
  simp only [Counted, PgDir.get, pdx_slot hi hj, ht]
  exact fun h => Bool.false_ne_true h.2

theorem countTab_count {i j n ret : Nat} {t : PgTab} (ht : d.tab i = some t) (hi : i < NPDENTRIES)
    (hj : j + n ≤ NPTENTRIES) (hret : ret = Nat.count (Counted d sz) (i * NPDENTRIES + j)) :
    (countTab sz i t (List.range' j n) ret).1 = Nat.count (Counted d sz) (i * NPDENTRIES + j + n) ∧
    ((countTab sz i t (List.range' j n) ret).2 = true → sz ≤ (i * NPDENTRIES + j + n) * PGSIZE) := by
  induction n generalizing j ret with
  | zero =>
    rw [Nat.add_zero]
    exact ⟨hret, fun h => absurd h Bool.false_ne_true⟩
  | succ n ih =>
    have hva : u32 ((i * NPDENTRIES + j) * PGSIZE) = (i * NPDENTRIES + j) * PGSIZE := by
      refine u32_of_lt ?_
      simp only [NPDENTRIES, NPTENTRIES, PGSIZE] at *
      omega
    rw [List.range'_succ, countTab, hva]
    split
    · next hle =>
      refine ⟨hret.trans (count_beyond hle (by omega)).symm, fun _ => ?_⟩
      exact Nat.le_trans hle (Nat.mul_le_mul_right _ (by omega))
    · next hlt =>
      have hnext : (if (t.entry j).present then ret + 1 else ret) =
          Nat.count (Counted d sz) (i * NPDENTRIES + (j + 1)) := by
        have hiff : Counted d sz (i * NPDENTRIES + j) ↔ _ := counted_slot ht hi (show j < NPTENTRIES by omega)
        rw [← Nat.add_assoc, Nat.count_succ, ← hret]
        by_cases hpr : (t.entry j).present = true
        · rw [if_pos hpr, if_pos (hiff.mpr ⟨Nat.lt_of_not_le hlt, hpr⟩)]
        · rw [if_neg hpr, if_neg fun h => hpr (hiff.mp h).2, Nat.add_zero]
      have := ih (by omega) hnext
      rwa [show i * NPDENTRIES + (j + 1) + n = i * NPDENTRIES + j + (n + 1) by omega] at this

theorem count_no_table {i : Nat} (ht : d.tab i = none) (hi : i < NPDENTRIES) :
    Nat.count (Counted d sz) ((i + 1) * NPDENTRIES) = Nat.count (Counted d sz) (i * NPDENTRIES) := by
  rw [Nat.add_one_mul, Nat.count_add, Nat.add_eq_left, Nat.count_iff_forall_not]
  exact fun k hk => not_counted_slot ht hi hk

theorem countDir_count {i n ret : Nat} (hi : i + n ≤ NPDENTRIES)
    (hret : ret = Nat.count (Counted d sz) (i * NPDENTRIES)) :
    countDir d sz (List.range' i n) ret = Nat.count (Counted d sz) ((i + n) * NPDENTRIES) := by
  induction n generalizing i ret with
  | zero =>
    rw [Nat.add_zero]
    exact hret
  | succ n ih =>
    rw [List.range'_succ, countDir, ← Nat.add_assoc, Nat.add_right_comm]
    cases ht : d.tab i with
    | none => exact ih (by omega) (hret.trans (count_no_table ht (by omega)).symm)
    | some t =>
      have hret0 : ret = Nat.count (Counted d sz) (i * NPDENTRIES + 0) := by rw [Nat.add_zero, hret]
      obtain ⟨h1, h2⟩ := countTab_count (n := NPTENTRIES) ht (by omega) (Nat.le_of_eq (Nat.zero_add _)) hret0
      have hend : i * NPDENTRIES + 0 + NPTENTRIES = (i + 1) * NPDENTRIES := by
        simp only [NPDENTRIES, NPTENTRIES]
        omega
      rw [← List.range_eq_range', hend] at h1 h2
      dsimp only
      split
      · next hstop =>
        rw [h1]
        exact (count_beyond (h2 hstop) (Nat.mul_le_mul_right _ (by omega))).symm
      · exact ih (by omega) h1

theorem countpp_eq_count (p : Proc) : countpp p = Nat.count (Counted p.pgdir p.sz) (NPDENTRIES * NPDENTRIES) := by
  rw [countpp, List.range_eq_range', countDir_count (by decide) (by rw [Nat.zero_mul, Nat.count_zero]),
    Nat.zero_add]

theorem countpp_of_sizeOk (hsz : p.sz < KERNBASE) (h : p.SizeOk) :
    countpp p = (mapped p.pgdir).card ∧ countpp p = (p.sz + (PGSIZE - 1)) / PGSIZE := by
  have hiff : ∀ v, Counted p.pgdir p.sz v ↔ v * PGSIZE < p.sz := by
    intro v
    refine ⟨And.left, fun hv => ⟨hv, h.1 _ ?_⟩⟩
    exact Nat.lt_of_lt_of_le hv (le_pgroundup (Nat.le_of_lt hsz))
  have hround : ∀ v, v * PGSIZE < p.sz ↔ v < (p.sz + (PGSIZE - 1)) / PGSIZE := by
    intro v
    simp only [PGSIZE]
    omega
  have hrange : ∀ v, v * PGSIZE < p.sz → v < NPDENTRIES * NPDENTRIES := by
    intro v hv
    simp only [PGSIZE, KERNBASE, NPDENTRIES] at *
    omega
  rw [countpp_eq_count, Nat.count_eq_card_filter_range]
  constructor
  · congr 1
    ext v
    simp only [mapped, mem_filter, mem_range, mem_userPages, hiff]
    constructor
    · rintro ⟨-, hv⟩
      exact ⟨Nat.lt_trans hv hsz, ((hiff v).mpr hv).2⟩
    · rintro ⟨hk, hpr⟩
      have hv : v * PGSIZE < p.sz := by
        by_contra hc
        have habs := h.2 (v * PGSIZE) (Nat.le_of_not_lt fun hlt => hc ?_) hk
        · rw [habs] at hpr
          cases hpr
        · rwa [lt_pgroundup_iff (Nat.le_of_lt hsz), Nat.mul_div_cancel _ (by decide)] at hlt
      exact ⟨hrange v hv, hv⟩
  · have hset : (Finset.range (NPDENTRIES * NPDENTRIES)).filter (Counted p.pgdir p.sz) =
        Finset.range ((p.sz + (PGSIZE - 1)) / PGSIZE) := by
      ext v
      rw [mem_filter, mem_range, mem_range, hiff, and_iff_right_of_imp (hrange v), hround]
    rw [hset, card_range]

/-- After any calls that succeed and leave each process some memory, `countpp` is the number of pages that are
mapped, and `countvp` is the same number exactly when the size is a whole number of pages. -/
theorem page_counts_agree_iff {ncpu : Nat} {mem : Nat → Page} {m0 : Machine} {tr : List (Machine × Act)}
    (hboot : boot ld ncpu mem = .ok m0) (hrun : Path (Next (next ld)) m0 tr m) (hshort : Meets ShortArgs tr)
    (hkeep : Meets KeepsSome tr) (hp : m.proc i = some p) (hz : p.zombie = false) :
    countpp p = (mapped p.pgdir).card ∧ (countvp p = countpp p ↔ p.sz % PGSIZE = 0) := by
  obtain ⟨hinv, hfill⟩ := (filled_along hboot hrun hshort hkeep).2
  obtain ⟨hmapped, hround⟩ := countpp_of_sizeOk (hinv.wf i p hp).sz_lt (sizeOk_of_filled hinv hfill i p hp hz)
  refine ⟨hmapped, ?_⟩
  rw [hround, countvp, PGSHIFT, Nat.shiftRight_eq_div_pow]
  simp only [PGSIZE]
  omega

/-- The first process, whose size is one page. -/
theorem page_counts_agree_first_process :
    ∃ m0 m p, boot demoLinker 1 (fun _ _ => 0) = .ok m0 ∧ next demoLinker m0 (.userinit []) = some m ∧
      m.proc initproc = some p ∧ countvp p = 1 ∧ countpp p = 1 ∧ (mapped p.pgdir).card = 1 := by
  obtain ⟨m0, m, d, kstack, hboot, hn, hinv, -, hp, -⟩ := first_process (c := 1) (by decide)
  have hrun : Path (Next (next demoLinker)) m0 [(m0, .userinit [])] m := .snoc (.nil m0) hn
  obtain ⟨hmapped, hagree⟩ := page_counts_agree_iff hboot hrun
    (fun x hx => by obtain rfl := List.mem_singleton.mp hx; trivial)
    (fun x hx => by obtain rfl := List.mem_singleton.mp hx; trivial) hp rfl
  have heq := hagree.mpr (by decide : PGSIZE % PGSIZE = 0)
  have hone : countvp (firstProc d kstack) = 1 := (by decide : PGSIZE >>> PGSHIFT = 1)
  exact ⟨m0, m, _, hboot, hn, hp, hone, by omega, by omega⟩

/-- After `sbrk(1)` the first process has two pages, and `countvp` says one. -/
theorem page_counts_differ_after_sbrk_one :
    ∃ m0 m p, boot demoLinker 1 (fun _ _ => 0) = .ok m0 ∧
      follow (next demoLinker) m0 [.userinit [], .growproc initproc 1] = some m ∧
      m.proc initproc = some p ∧ p.sz = 0x1001 ∧ countvp p = 1 ∧ countpp p = 2 ∧ (mapped p.pgdir).card = 2 := by
  obtain ⟨m0, m, p, hboot, hf, hinv, -, hp, -, hz, hsz, hmaps, -⟩ :=
    first_growth (c := 1) (n := 1) (by decide) (by decide) (by decide)
  obtain ⟨tr, hrun, htr⟩ := path_of_follow hf
  have hkeep : Meets KeepsSome tr := meets_of_labels htr fun a ha m => by
    rcases List.mem_pair.mp ha with rfl | rfl
    · trivial
    · intro p _ hn
      omega
  obtain ⟨-, hfill⟩ := (filled_along hboot hrun (meets_growth htr) hkeep).2
  obtain ⟨hmapped, hround⟩ := countpp_of_sizeOk (hinv.wf initproc p hp).sz_lt
    (sizeOk_of_filled hinv hfill initproc p hp hz)
  have hvp : countvp p = 1 := by
    rw [countvp, hsz]
    rfl
  have hpp : countpp p = 2 := by
    rw [hround, hsz]
    rfl
  exact ⟨m0, m, p, hboot, hf, hp, hsz, hvp, hpp, hmapped ▸ hpp⟩

end Xv6.Sys
