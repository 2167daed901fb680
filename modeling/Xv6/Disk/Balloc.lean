import Xv6.Disk.Blocks

/-!
# Allocating blocks

What `balloc`, `bfree` and `iupdate` leave, as one change of the blocks.
-/

open Xv6.Bytes Xv6.Cmd Function

namespace Xv6.Disk

variable {cf : Conf} {s s' : State} {b c i j o : Nat} {data : Block} {block : Nat → Block} {d : Dinode}

/-! ## Buffers -/

theorem bread_of_free (h : b ∉ s.bufs) : bread b s = .ok (s.block b, { s with bufs := b :: s.bufs }) := if_neg h

/-- The state after `log_write`. -/
def State.log (s : State) (b : Nat) (data : Block) : State :=
  { s.setBlock b data with logged := s.logged ++ [b] }

theorem log_write_ok (b : Nat) (data : Block) (s : State) : log_write b data s = .ok ((), s.log b data) := rfl

theorem update_block {α : Type} (f : Block → Block) (g : Block → K α) (h : b ∉ s.bufs) :
    (do
      let data ← bread b
      log_write b (f data)
      brelse b
      g data) s = g (s.block b) (s.log b (f (s.block b))) := by
  rw [bind_of_ok (bread_of_free h), bind_of_ok (log_write_ok _ _ _), bind_of_ok (rfl : brelse b _ = .ok ((), _))]
  simp [State.log, State.setBlock]

theorem bzero_ok (h : b ∉ s.bufs) : bzero b s = .ok ((), s.log b fun _ => 0) := by
  unfold bzero
  rw [bind_of_ok (bread_of_free h), bind_of_ok (log_write_ok _ _ _)]
  simp [brelse, State.log, State.setBlock]

/-! ## `balloc` -/

/-- `b` can be allocated. -/
def Free (cf : Conf) (block : Nat → Block) (b : Nat) : Prop := b < cf.size ∧ ¬ Used cf block b

instance (cf : Conf) (block : Nat → Block) (b : Nat) : Decidable (Free cf block b) := inferInstanceAs (Decidable (_ ∧ _))

/-- The state after `balloc` has returned `b`. -/
def State.alloc (cf : Conf) (s : State) (b : Nat) : State :=
  (s.log (cf.bblock b) (setBit (s.block (cf.bblock b)) b)).log b fun _ => 0

section Scan

variable {k bi : Nat}

theorem block_of_bit (cf : Conf) (hb : b % BPB = 0) (hbi : bi < BPB) :
    cf.bblock (b + bi) = cf.bblock b ∧ (b + bi) % BPB = bi ∧ mask (b + bi) = mask bi := by
  have hm : mask (b + bi) = mask bi := by
    unfold mask
    congr 2
    simp only [BPB, BSIZE] at *
    omega
  refine ⟨?_, ?_, hm⟩ <;> simp only [Conf.bblock, BPB, BSIZE] at * <;> omega

theorem free_iff_bit (cf : Conf) (block : Nat → Block) (hb : b % BPB = 0) (hbi : bi < BPB) :
    Used cf block (b + bi) ↔ ¬ block (cf.bblock b) (bi / 8) &&& mask bi = 0 := by
  obtain ⟨h1, h2, h3⟩ := block_of_bit cf hb hbi
  have h4 : (b + bi) % 8 = bi % 8 := by
    simp only [BPB, BSIZE] at *
    omega
  rw [Used, h1, h2, and_mask, h4, Bool.not_eq_false]

theorem scan_eq (k bi : Nat) (hb : b % BPB = 0) (hdata : data = block (cf.bblock b)) (hk : BPB ≤ k + bi) :
    (∃ m, scan cf data b k bi = some m ∧ bi ≤ m ∧ m < BPB ∧ Free cf block (b + m) ∧
      ∀ c, b + bi ≤ c → c < b + m → Used cf block c) ∨
    (scan cf data b k bi = none ∧ ∀ c, b + bi ≤ c → c < b + BPB → c < cf.size → Used cf block c) := by
  induction k generalizing bi with
  | zero => exact .inr ⟨rfl, fun c h1 h2 _ => by omega⟩
  | succ k ih =>
    rw [scan]
    by_cases hin : bi < BPB ∧ b + bi < cf.size
    · rw [if_pos hin]
      have hfree := free_iff_bit cf block hb hin.1
      rw [← hdata] at hfree
      by_cases hbit : data (bi / 8) &&& mask bi = 0
      · rw [if_pos hbit]
        exact .inl ⟨bi, rfl, Nat.le_refl _, hin.1, ⟨hin.2, fun hu => hfree.mp hu hbit⟩, fun c h1 h2 => by omega⟩
      · rw [if_neg hbit]
        have hcons : ∀ c, b + bi ≤ c → (b + (bi + 1) ≤ c → Used cf block c) → Used cf block c := by
          intro c h1 h2
          by_cases hc : c = b + bi
          · rw [hc]
            exact hfree.mpr hbit
          · exact h2 (by omega)
        rcases ih (bi + 1) (by omega) with ⟨m, hm, h1, h2, h3, h4⟩ | ⟨hm, h1⟩
        · exact .inl ⟨m, hm, by omega, h2, h3, fun c hc hlt => hcons c hc fun h => h4 c h hlt⟩
        · exact .inr ⟨hm, fun c hc hlt hs => hcons c hc fun h => h1 c h hlt hs⟩
    · rw [if_neg hin]
      exact .inr ⟨rfl, fun c h1 h2 h3 => by omega⟩

end Scan

/-- The buffers that are locked are not in the way of `balloc`. -/
structure BufsOk (cf : Conf) (s : State) : Prop where
  bitmap : ∀ c < cf.size, cf.bblock c ∉ s.bufs
  used : ∀ c ∈ s.bufs, Used cf s.block c

theorem ballocLoop_of_free {k : Nat} (hb : b % BPB = 0) (hused : ∀ c < b, c < cf.size → Used cf s.block c)
    (hk : cf.size ≤ b + k * BPB) (hc : Free cf s.block c) (hbufs : BufsOk cf s) :
    ∃ m, ballocLoop cf k b s = .ok (m, s.alloc cf m) ∧ Free cf s.block m := by
  have hbc : b ≤ c := by
    by_contra hlt
    exact hc.2 (hused c (by omega) hc.1)
  induction k generalizing b with
  | zero =>
    have := hc.1
    omega
  | succ k ih =>
    have hlt : b < cf.size := Nat.lt_of_le_of_lt hbc hc.1
    rw [ballocLoop, if_pos hlt, bind_of_ok (bread_of_free (hbufs.bitmap b hlt))]
    rcases scan_eq BPB 0 hb (rfl : s.block (cf.bblock b) = _) (Nat.le_refl BPB) with
      ⟨m, hm, -, h2, h3, -⟩ | ⟨hm, h1⟩
    · obtain ⟨e1, e2, e3⟩ := block_of_bit cf hb h2
      have hn : b + m ∉ s.bufs := fun hc => h3.2 (hbufs.used _ hc)
      refine ⟨b + m, ?_, h3⟩
      rw [hm]
      dsimp only
      rw [bind_of_ok (log_write_ok _ _ _), bind_of_ok (rfl : brelse (cf.bblock b) _ = .ok ((), _))]
      have hz : b + m ∉ (({ s with bufs := cf.bblock b :: s.bufs }.log (cf.bblock b) (update
          (s.block (cf.bblock b)) (m / 8) (s.block (cf.bblock b) (m / 8) ||| mask m))).bufs.erase (cf.bblock b)) := by
        simpa [State.log, State.setBlock] using hn
      rw [bind_of_ok (bzero_ok hz)]
      simp [State.alloc, setBit, State.log, State.setBlock, e1, e2, e3]
    · rw [hm]
      dsimp only
      rw [bind_of_ok (rfl : brelse (cf.bblock b) _ = .ok ((), _))]
      have hsame : ({ s with bufs := (cf.bblock b :: s.bufs).erase (cf.bblock b) } : State) = s := by simp
      dsimp only
      rw [hsame]
      have hused' : ∀ c < b + BPB, c < cf.size → Used cf s.block c := fun c h hs => by
        by_cases hcb : c < b
        · exact hused c hcb hs
        · exact h1 c (by omega) h hs
      refine ih (by simp [hb]) hused' (by rw [Nat.succ_mul] at hk; omega) ?_
      by_contra hlt'
      exact hc.2 (hused' c (by omega) hc.1)

theorem ballocLoop_of_full {k : Nat} (hfull : ∀ c, ¬ Free cf s.block c) (hb : b % BPB = 0) (hbufs : BufsOk cf s) :
    ballocLoop cf k b s = .error (.panic "balloc: out of blocks") := by
  induction k generalizing b with
  | zero => rfl
  | succ k ih =>
    rw [ballocLoop]
    by_cases hlt : b < cf.size
    · rw [if_pos hlt, bind_of_ok (bread_of_free (hbufs.bitmap b hlt))]
      rcases scan_eq BPB 0 hb (rfl : s.block (cf.bblock b) = _) (Nat.le_refl BPB) with
        ⟨m, -, -, -, h3, -⟩ | ⟨hm, -⟩
      · exact absurd h3 (hfull _)
      · rw [hm]
        dsimp only
        rw [bind_of_ok (rfl : brelse (cf.bblock b) _ = .ok ((), _))]
        have hsame : ({ s with bufs := (cf.bblock b :: s.bufs).erase (cf.bblock b) } : State) = s := by simp
        dsimp only
        rw [hsame]
        exact ih (by simp [hb])
    · rw [if_neg hlt]
      rfl

theorem balloc_ends {E : Stop → Prop} (hbufs : BufsOk cf s)
    (hc : E (.panic "balloc: out of blocks") ∨ ∃ c, Free cf s.block c) :
    Ends E (balloc cf) s fun m s' => s' = s.alloc cf m ∧ Free cf s.block m := by
  by_cases hfree : ∃ c, Free cf s.block c
  · obtain ⟨c, hc⟩ := hfree
    have hpos : 0 < BPB := by decide
    have hk : cf.size ≤ 0 + (cf.size / BPB + 1) * BPB := by
      rw [Nat.zero_add]
      exact Nat.le_of_lt ((Nat.div_lt_iff_lt_mul hpos).mp (Nat.lt_succ_self _))
    obtain ⟨m, hm, hfm⟩ := ballocLoop_of_free (Nat.zero_mod _) (fun c h => absurd h (Nat.not_lt_zero c)) hk hc hbufs
    exact ends_of_ok hm ⟨rfl, hfm⟩
  · have hE := hc.resolve_right hfree
    rw [Ends, balloc, ballocLoop_of_full (not_exists.mp hfree) (Nat.zero_mod _) hbufs]
    exact hE

/-! ## What an allocation changes -/

section Alloc

theorem alloc_block : (s.alloc cf b).block = update
    (update s.block (cf.bblock b) (setBit (s.block (cf.bblock b)) b)) b fun _ => 0 := rfl

theorem alloc_block_self : (s.alloc cf b).block b = fun _ => 0 := update_self b _ _

theorem alloc_block_of_ne (h1 : c ≠ b) (h2 : c ≠ cf.bblock b) : (s.alloc cf b).block c = s.block c := by
  rw [alloc_block, update_of_ne h1, update_of_ne h2]

variable (hl : cf.Layout)

include hl

theorem used_alloc (hb : cf.dataStart ≤ b) (hc : c < cf.size) :
    Used cf (s.alloc cf b).block c ↔ c = b ∨ Used cf s.block c := by
  have := hl.bitmap c hc
  rw [alloc_block, used_update (by omega), used_setBit]

theorem dinode_alloc (hb : cf.dataStart ≤ b) (hbs : b < cf.size) (hi : i < cf.ninodes) :
    dinode cf (s.alloc cf b).block i = dinode cf s.block i := by
  have h1 := hl.iblock_lt hi hbs
  have h2 := hl.iblock_ne_bblock hi b
  rw [alloc_block, dinode_update_of_ne (by omega), dinode_update_of_ne h2]

end Alloc

end Xv6.Disk
