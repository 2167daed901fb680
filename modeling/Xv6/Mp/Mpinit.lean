import Xv6.Lib.Bytes
import Xv6.Mmu

/-!
# The search for processors

`mp.c`. The loop of `mpinit` moves its cursor by the size of each entry it knows. The branch for an entry it
does not know leaves the `switch` and not the loop, so the cursor stays.
-/

open Xv6.Bytes

namespace Xv6.Mp

/-! ## The code -/

def NCPU : Nat := 8

/-- The byte at an address of 32 bits. -/
def peek (m : Mem) (a : Nat) : UInt8 := m (u32 a)

/-- `sum` -/
def sum (m : Mem) (addr len : Nat) : UInt8 := ((List.range len).map fun i => peek m (addr + i)).sum

/-- The test `memcmp(p, s, n) == 0` for a string of `n` characters. -/
def same (m : Mem) (p : Nat) (s : List UInt8) : Bool :=
  (List.range s.length).map (fun i => peek m (p + i)) = s

/-- `mpsearch1`; `struct mp` has 16 bytes. -/
def mpsearch1 (m : Mem) (a len : Nat) : Option Nat :=
  ((List.range (len / 16)).map fun i => u32 (P2V a + 16 * i)).find? fun p =>
    -- `_MP_`
    same m p [95, 77, 80, 95] && sum m p 16 == 0

/-- `mpsearch` -/
def mpsearch (m : Mem) : Option Nat :=
  let p := load (peek m) (P2V 0x400 + 0x0E) 2 * 16
  let first :=
    if p ≠ 0 then mpsearch1 m p 1024
    else mpsearch1 m (u32 (load (peek m) (P2V 0x400 + 0x13) 2 * 1024 + 2 ^ 32 - 1024)) 1024
  first.or (mpsearch1 m 0xF0000 0x10000)

/-- `conf->length` -/
def length (m : Mem) (conf : Nat) : Nat := load (peek m) (conf + 4) 2

/-- `mpconfig`: the floating pointer and the table. -/
def mpconfig (m : Mem) : Option (Nat × Nat) := do
  let mp ← mpsearch m
  let physaddr := load (peek m) (mp + 4) 4
  if physaddr = 0 then none
  let conf := P2V physaddr
  -- `PCMP`
  if !same m conf [80, 67, 77, 80] then none
  if peek m (conf + 6) ≠ 1 ∧ peek m (conf + 6) ≠ 4 then none
  if sum m conf (length m conf) ≠ 0 then none
  return (mp, conf)

/-- The variables of the loop in `mpinit`, and what it sets. -/
structure Scan where
  p : Nat
  ismp : Bool
  ncpu : Nat
  /-- `cpus[i].apicid` -/
  apicid : Nat → UInt8
  ioapicid : UInt8
  lapic : Nat

def Scan.move (s : Scan) (n : Nat) : Scan := { s with p := u32 (s.p + n) }

def Scan.addCpu (m : Mem) (s : Scan) : Scan :=
  if s.ncpu < NCPU then
    { s with ncpu := s.ncpu + 1, apicid := Function.update s.apicid s.ncpu (peek m (s.p + 1)) }
  else s

/-- One turn of the loop, by the type of the entry. -/
def Scan.turn (m : Mem) (s : Scan) : Scan :=
  match (peek m s.p).toNat with
  -- `MPPROC`
  | 0 => (s.addCpu m).move 20
  -- `MPBUS`
  | 1 => s.move 8
  -- `MPIOAPIC`
  | 2 => { s with ioapicid := peek m (s.p + 1) }.move 8
  -- `MPIOINTR`, `MPLINTR`
  | 3 | 4 => s.move 8
  | _ => { s with ismp := false }

/-- At most `k` turns of the loop. -/
def Scan.run (m : Mem) (e : Nat) : Nat → Scan → Scan
  | 0, s => s
  | k + 1, s => if s.p < e then (s.turn m).run m e k else s

/-- The loop begins behind the 44 bytes of `struct mpconf`. -/
def Scan.first (m : Mem) (conf : Nat) : Scan :=
  { p := u32 (conf + 44), ismp := true, ncpu := 0, apicid := fun _ => 0, ioapicid := 0,
    lapic := load (peek m) (conf + 36) 4 }

/-- `mpinit` with at most `k` turns of its loop, `none` if they are too few. The result is what the loop
leaves and whether the IMCR is set. -/
def mpinit (m : Mem) (k : Nat) : Option (Except String (Scan × Bool)) :=
  match mpconfig m with
  | none => some (.error "Expect to run on an SMP")
  | some (mp, conf) =>
    let e := u32 (conf + length m conf)
    let s := (Scan.first m conf).run m e k
    if s.p < e then none
    else if !s.ismp then some (.error "Didn't find a suitable machine")
    else some (.ok (s, peek m (mp + 12) ≠ 0))

/-! ## The entries -/

/-- From `p` to `e` the table has entries that the loop knows. -/
inductive Entries (m : Mem) (e : Nat) : Nat → Prop
  | done {p : Nat} : e ≤ p → Entries m e p
  | entry {p : Nat} : p < e → (m p).toNat ≤ 4 → Entries m e (p + if (m p).toNat = 0 then 20 else 8) →
      Entries m e p

variable {m : Mem} {e : Nat} {s : Scan}

@[simp] theorem addCpu_p : (s.addCpu m).p = s.p := by
  unfold Scan.addCpu
  split <;> rfl

@[simp] theorem addCpu_ismp : (s.addCpu m).ismp = s.ismp := by
  unfold Scan.addCpu
  split <;> rfl

theorem turn_cases (m : Mem) (s : Scan) :
    (peek m s.p).toNat ≤ 4 ∧ (s.turn m).p = u32 (s.p + if (peek m s.p).toNat = 0 then 20 else 8) ∧
      (s.turn m).ismp = s.ismp ∨
    4 < (peek m s.p).toNat ∧ s.turn m = { s with ismp := false } := by
  unfold Scan.turn
  split
  · next h => exact .inl ⟨by omega, by rw [if_pos h, Scan.move, addCpu_p], addCpu_ismp⟩
  · next h => exact .inl ⟨by omega, by rw [h]; rfl, rfl⟩
  · next h => exact .inl ⟨by omega, by rw [h]; rfl, rfl⟩
  · next h => exact .inl ⟨by omega, by rw [h]; rfl, rfl⟩
  · next h => exact .inl ⟨by omega, by rw [h]; rfl, rfl⟩
  · next h0 h1 h2 h3 h4 =>
    simp only [imp_false] at h0 h1 h2 h3 h4
    exact .inr ⟨by omega, rfl⟩

theorem turn_ncpu (h : s.ncpu ≤ NCPU) : (s.turn m).ncpu ≤ NCPU := by
  unfold Scan.turn
  split
  · unfold Scan.move Scan.addCpu
    split
    · assumption
    · exact h
  all_goals exact h

theorem run_ncpu (k : Nat) (h : s.ncpu ≤ NCPU) : (s.run m e k).ncpu ≤ NCPU := by
  induction k generalizing s with
  | zero => exact h
  | succ k ih =>
    rw [Scan.run]
    split
    · exact ih (turn_ncpu h)
    · exact h

theorem run_stuck (k : Nat) (hlt : s.p < e) (h : 4 < (peek m s.p).toNat) : (s.run m e k).p = s.p := by
  induction k generalizing s with
  | zero => rfl
  | succ k ih =>
    obtain ⟨hle, -⟩ | ⟨-, hturn⟩ := turn_cases m s
    · omega
    · rw [Scan.run, if_pos hlt, hturn]
      exact ih hlt h

/-- The end of an entry before `e` is below `2 ^ 32`, so the cursor does not wrap around. -/
theorem entry_end (hfit : e + 20 ≤ 2 ^ 32) (hlt : s.p < e) :
    peek m s.p = m s.p ∧ ∀ n ≤ 20, u32 (s.p + n) = s.p + n :=
  ⟨congrArg m (u32_of_lt (by omega)), fun n hn => u32_of_lt (by omega)⟩

theorem entries_of_run {k : Nat} (hfit : e + 20 ≤ 2 ^ 32) (hend : e ≤ (s.run m e k).p) :
    Entries m e s.p ∧ (s.run m e k).ismp = s.ismp := by
  induction k generalizing s with
  | zero => exact ⟨.done hend, rfl⟩
  | succ k ih =>
    by_cases hlt : s.p < e
    · obtain ⟨hpeek, hp⟩ := entry_end (m := m) hfit hlt
      obtain ⟨hle, hmove, hismp⟩ | ⟨hbad, -⟩ := turn_cases m s
      · rw [Scan.run, if_pos hlt] at hend ⊢
        obtain ⟨hent, heq⟩ := ih hend
        rw [hmove, hp _ (by split <;> omega), hpeek] at hent
        exact ⟨.entry hlt (hpeek ▸ hle) hent, heq.trans hismp⟩
      · rw [run_stuck _ hlt hbad] at hend
        omega
    · rw [Scan.run, if_neg hlt]
      exact ⟨.done (by omega), rfl⟩

theorem run_of_entries (hfit : e + 20 ≤ 2 ^ 32) {p : Nat} (h : Entries m e p) (hp : s.p = p) :
    ∃ k, e ≤ (s.run m e k).p := by
  induction h generalizing s with
  | done hle => exact ⟨0, hp ▸ hle⟩
  | @entry p hlt hle _ ih =>
    subst hp
    obtain ⟨hpeek, hend⟩ := entry_end (m := m) hfit hlt
    obtain ⟨-, hmove, -⟩ | ⟨hbad, -⟩ := turn_cases m s
    · obtain ⟨k, hk⟩ := ih (s := s.turn m) (by rw [hmove, hend _ (by split <;> omega), hpeek])
      exact ⟨k + 1, by rwa [Scan.run, if_pos hlt]⟩
    · rw [hpeek] at hbad
      omega

/-- For a table that `mpconfig` accepts, `mpinit` ends just when the loop knows every entry it comes to, and
then it has found a machine with at most `NCPU` processors. -/
theorem mpinit_ends_iff (m : Mem) (mp conf : Nat) (hconf : mpconfig m = some (mp, conf))
    (hfit : conf + length m conf + 64 ≤ 2 ^ 32) :
    ((∃ k, (mpinit m k).isSome) ↔ Entries m (conf + length m conf) (conf + 44)) ∧
    ∀ k r, mpinit m k = some r → ∃ s imcr, r = .ok (s, imcr) ∧ s.ncpu ≤ NCPU := by
  have he : u32 (conf + length m conf) = conf + length m conf := u32_of_lt (by omega)
  have hp : (Scan.first m conf).p = conf + 44 := u32_of_lt (by omega)
  have hentries : ∀ k, _ := fun k => entries_of_run (m := m) (s := .first m conf) (k := k)
    (by omega : conf + length m conf + 20 ≤ 2 ^ 32)
  rw [hp] at hentries
  simp only [mpinit, hconf, he]
  refine ⟨⟨fun ⟨k, hk⟩ => ?_, fun h => ?_⟩, fun k r hr => ?_⟩
  · by_contra hno
    rw [if_pos (by have := (hentries k).mt (fun h => hno h.1); omega)] at hk
    cases hk
  · obtain ⟨k, hk⟩ := run_of_entries (by omega) h hp
    refine ⟨k, ?_⟩
    rw [if_neg (by omega)]
    split <;> rfl
  · split at hr
    · cases hr
    · next hend =>
      rw [(hentries k (by omega)).2] at hr
      cases hr
      exact ⟨_, _, rfl, run_ncpu k (Nat.zero_le _)⟩

/-! ## Two tables -/

/-- A memory with a floating pointer at 0x100 and a table at 0x200 that has one entry of the given type. The
last number makes the sum of the table zero. -/
def oneEntry (type checksum : UInt8) : Mem := fun a =>
  (([(0x8000040E, 0x10)] ++ [95, 77, 80, 95, 0, 2, 0, 0, 1, 4, 158].mapIdx (fun i b => (0x80000100 + i, b)) ++
    [80, 67, 77, 80, 52, 0, 4, checksum].mapIdx (fun i b => (0x80000200 + i, b)) ++
    [(0x8000022C, type)] : List (Nat × UInt8)).lookup a).getD 0

/-- An entry for a bus. -/
theorem mpinit_ends_bus : ∃ k, (mpinit (oneEntry 1 151) k).isSome := by
  refine (mpinit_ends_iff _ 0x80000100 0x80000200 (by decide +kernel) (by decide +kernel)).1.mpr ?_
  exact .entry (by decide +kernel) (by decide +kernel) (.done (by decide +kernel))

/-- The table is accepted, its only entry has type 5, and `mpinit` does not end. -/
theorem mpinit_loops : mpconfig (oneEntry 5 147) = some (0x80000100, 0x80000200) ∧
    ∀ k, mpinit (oneEntry 5 147) k = none := by
  have hconf : mpconfig (oneEntry 5 147) = some (0x80000100, 0x80000200) := by decide +kernel
  refine ⟨hconf, fun k => ?_⟩
  have he : u32 (0x80000200 + length (oneEntry 5 147) 0x80000200) = 0x80000234 := by decide +kernel
  have hstuck : ((Scan.first (oneEntry 5 147) 0x80000200).run (oneEntry 5 147) 0x80000234 k).p = 0x8000022C :=
    run_stuck k (by decide) (by decide +kernel)
  simp only [mpinit, hconf, he]
  rw [if_pos (by rw [hstuck]; decide)]

end Xv6.Mp
