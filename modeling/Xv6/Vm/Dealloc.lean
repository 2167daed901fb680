import Xv6.Vm.Take

/-!
# `deallocuvm` page by page

`deallocuvm` goes over a missing page table in one jump. It does the same as a loop that visits every page.
-/

open Xv6.Cmd List

namespace Xv6.Vm

/-- The pages from number `v` on that begin below `oldsz`. -/
def pagesFrom (v oldsz : Nat) : List Nat := (List.range' v ((oldsz + 4095) / 4096 - v)).map (· * PGSIZE)

/-- The pages from `newsz`, rounded up, to `oldsz`. -/
def pagesBetween (newsz oldsz : Nat) : List Nat := pagesFrom ((newsz + 4095) / 4096) oldsz

/-- Every page in turn, freed and cleared if it is present. -/
def freePages (ld : Linker) : List Nat → PgDir → K PgDir
  | [], d => pure d
  | a :: as, d =>
    if (d.get a).present then
      if (d.get a).ppn = 0 then throw (.panic "kfree")
      else do
        kfree ld (d.get a).ppn
        freePages ld as (d.set a .zero)
    else freePages ld as d

variable {ld : Linker} {d d' : PgDir} {s s' : Phys} {as bs : List Nat}

theorem freePages_append (h : ∀ a ∈ as, (d.get a).present = false) :
    freePages ld (as ++ bs) d = freePages ld bs d := by
  induction as with
  | nil => rfl
  | cons a as ih =>
    rw [cons_append, freePages, if_neg (by rw [h a mem_cons_self]; decide),
      ih fun b hb => h b (mem_cons_of_mem _ hb)]

theorem freePages_throws (as : List Nat) (d : PgDir) : Throws (· = .panic "kfree") (freePages ld as d) := by
  induction as generalizing d with
  | nil => exact throws_pure d
  | cons a as ih =>
    refine throws_ite (fun _ => throws_ite (fun _ => throws_throw rfl) fun _ => throws_bind ?_ fun _ => ih _) fun _ => ih d
    intro s e h
    unfold kfree at h
    split at h
    · exact (Except.error.inj h).symm
    · cases h

theorem freePages_get (has : ∀ a ∈ as, a % PGSIZE = 0 ∧ a < 0x100000000)
    (h : freePages ld as d s = .ok (d', s')) {b : Nat} (hb : b < 0x100000000)
    (hout : b / PGSIZE * PGSIZE ∉ as) : d'.get b = d.get b := by
  induction as generalizing d s with
  | nil =>
    obtain ⟨rfl, -⟩ := Prod.mk.inj (pure_ok h)
    rfl
  | cons a as ih =>
    rw [forall_mem_cons] at has
    rw [mem_cons, not_or] at hout
    rw [freePages] at h
    split at h
    · next hp =>
      split at h
      · exact (throw_ok h).elim
      · obtain ⟨-, s1, -, h⟩ := bind_ok h
        rw [ih has.2 h hout.2, PgDir.get_set (PgDir.hasTab_of_present hp) has.1.2 hb, if_neg]
        simp only [PGSIZE] at *
        omega
    · exact ih has.2 h hout.2

/-! ## The list of pages -/

variable {oldsz v w : Nat}

theorem pagesFrom_of_le (h : oldsz ≤ v * PGSIZE) : pagesFrom v oldsz = [] := by
  rw [pagesFrom, show (oldsz + 4095) / 4096 - v = 0 by simp only [PGSIZE] at h; omega]
  rfl

theorem pagesFrom_append (oldsz : Nat) (h : v ≤ w) : ∃ as, pagesFrom v oldsz = as ++ pagesFrom w oldsz ∧
    ∀ a ∈ as, ∃ u, v ≤ u ∧ u < w ∧ a = u * PGSIZE := by
  refine ⟨(List.range' v (min (w - v) ((oldsz + 4095) / 4096 - v))).map (· * PGSIZE), ?_, fun a ha => ?_⟩
  · rw [pagesFrom, pagesFrom, ← map_append]
    congr 1
    by_cases hw : (oldsz + 4095) / 4096 ≤ w
    · rw [Nat.sub_eq_zero_of_le hw, min_eq_right (by omega), List.range'_zero, append_nil]
    · rw [min_eq_left (by omega), show (oldsz + 4095) / 4096 - v = w - v + ((oldsz + 4095) / 4096 - w) by omega,
        ← List.range'_append_1, show v + (w - v) = w by omega]
  · obtain ⟨u, hu, rfl⟩ := mem_map.mp ha
    rw [mem_range'_1] at hu
    exact ⟨u, by omega, by omega, rfl⟩

theorem pagesFrom_cons (h : v * PGSIZE < oldsz) : pagesFrom v oldsz = v * PGSIZE :: pagesFrom (v + 1) oldsz := by
  rw [pagesFrom, pagesFrom, show (oldsz + 4095) / 4096 - v = (oldsz + 4095) / 4096 - (v + 1) + 1 by
    simp only [PGSIZE] at h; omega, List.range'_succ, map_cons]

theorem pagesFrom_spec (hold : oldsz ≤ KERNBASE) : ∀ a ∈ pagesFrom v oldsz, a % PGSIZE = 0 ∧ a < 0x100000000 := by
  intro a ha
  obtain ⟨u, hu, rfl⟩ := mem_map.mp ha
  rw [mem_range'_1] at hu
  simp only [PGSIZE, KERNBASE] at *
  omega

/-! ## The loop -/

theorem deallocLoop_eq {n : Nat} (hold : oldsz ≤ KERNBASE) (hn : oldsz ≤ (v + n) * PGSIZE) :
    deallocLoop ld oldsz n d (v * PGSIZE) = freePages ld (pagesFrom v oldsz) d := by
  induction n generalizing d v with
  | zero =>
    rw [Nat.add_zero] at hn
    rw [deallocLoop, if_neg (by omega), pagesFrom_of_le hn]
    rfl
  | succ n ih =>
    rw [deallocLoop]
    by_cases hlt : v * PGSIZE < oldsz
    · have hnext : u32 (v * PGSIZE + PGSIZE) = (v + 1) * PGSIZE := by
        simp only [u32, PGSIZE, KERNBASE] at *
        omega
      rw [if_pos hlt, hnext, ih (by rwa [Nat.add_right_comm]), ih (by rwa [Nat.add_right_comm])]
      split
      · next htab =>
        have hjump : pgaddr (pdx (v * PGSIZE) + 1) = (v / 1024 + 1) * 1024 * PGSIZE := by
          simp only [pgaddr, pdx, u32, PGSIZE, KERNBASE] at *
          omega
        have hrest : v + (n + 1) ≤ (v / 1024 + 1) * 1024 + n := by omega
        rw [hjump, ih (hn.trans (Nat.mul_le_mul_right _ hrest))]
        obtain ⟨as, heq, has⟩ := pagesFrom_append oldsz (show v ≤ (v / 1024 + 1) * 1024 by omega)
        rw [heq, freePages_append]
        intro a ha
        obtain ⟨u, hvu, huw, rfl⟩ := has a ha
        have hno : ¬ d.HasTab (u * PGSIZE) := by
          rw [PgDir.HasTab, show pdx (u * PGSIZE) = pdx (v * PGSIZE) by simp only [pdx, PGSIZE]; omega]
          simpa using htab
        rw [PgDir.get_of_no_tab hno]
        rfl
      · rw [pagesFrom_cons hlt, freePages]
    · rw [if_neg hlt, pagesFrom_of_le (Nat.le_of_not_lt hlt)]
      rfl

/-- `deallocuvm` frees and clears the pages from `newsz` to `oldsz` one by one, comes to its end or to the
panic of `kfree`, and leaves every other entry alone. -/
theorem deallocuvm_eq_plain (ld : Linker) (d : PgDir) (oldsz newsz : Nat) (hold : oldsz ≤ KERNBASE) :
    deallocuvm ld d oldsz newsz =
      (do let d' ← freePages ld (pagesBetween newsz oldsz) d
          pure (d', if oldsz ≤ newsz then oldsz else newsz)) ∧
    (∀ s e, deallocuvm ld d oldsz newsz s = .error e → e = .panic "kfree") ∧
    ∀ s d' r s', deallocuvm ld d oldsz newsz s = .ok ((d', r), s') →
      ∀ b < 0x100000000, b / PGSIZE * PGSIZE ∉ pagesBetween newsz oldsz → d'.get b = d.get b := by
  have heq : deallocuvm ld d oldsz newsz =
      (do let d' ← freePages ld (pagesBetween newsz oldsz) d
          pure (d', if oldsz ≤ newsz then oldsz else newsz)) := by
    unfold deallocuvm
    split
    · next hle =>
      rw [pagesBetween, pagesFrom_of_le (by simp only [PGSIZE]; omega)]
      rfl
    · next hlt =>
      have hround : pgroundup newsz = (newsz + 4095) / 4096 * PGSIZE := pgroundup_of_le (by omega)
      dsimp only
      rw [hround, deallocLoop_eq hold (by simp only [PGSIZE]; omega)]
      rfl
  refine ⟨heq, fun s e h => ?_, fun s d' r s' h b hb hout => ?_⟩
  · rw [heq] at h
    exact throws_bind (freePages_throws _ d) (fun _ => throws_pure _) s e h
  · rw [heq] at h
    obtain ⟨d1, s1, hf, hp⟩ := bind_ok h
    obtain ⟨rfl, -, -⟩ := pure_pair_ok hp
    exact freePages_get (pagesFrom_spec hold) hf hb hout

/-- All user memory of a directory with one page, at 0x401000. -/
theorem deallocuvm_eq_plain_one_page :
    deallocuvm smallKernel (PgDir.set (PgDir.addTab ⟨0x400, fun _ => none⟩ 1 0x401) 0x401000 (userPerm.pte 0x402))
        KERNBASE 0 =
      (do let d' ← freePages smallKernel (pagesBetween 0 KERNBASE)
            (PgDir.set (PgDir.addTab ⟨0x400, fun _ => none⟩ 1 0x401) 0x401000 (userPerm.pte 0x402))
          pure (d', 0)) :=
  (deallocuvm_eq_plain smallKernel _ KERNBASE 0 (Nat.le_refl _)).1

end Xv6.Vm
