import Xv6.Lib.Ring
import Xv6.Pipe.Code

/-!
# A pipe is a queue

Whatever the processes do, the bytes that the readers have got are the first ones that were stored, and
the others are in the pipe. The counters wrap around, and `PIPESIZE` divides `2 ^ 32`.
-/

open Xv6.Ring Xv6.Run

namespace Xv6.Pipe

variable {ι : Type} {s s' : State ι} {i : ι} {a : Act ι}

/-- How many bytes are in the pipe. -/
def State.count (s : State ι) : Nat := (s.nwrite - s.nread).toNat

def State.queue (s : State ι) : List UInt8 := contents PIPESIZE s.data s.nread.toNat s.count

/-- Nothing is lost, doubled or reordered, and the counters are at most `PIPESIZE` apart. -/
structure Fifo (s : State ι) : Prop where
  lossless : s.stored = s.handed ++ s.queue
  bound : s.count ≤ PIPESIZE

structure SameQueue (s s' : State ι) : Prop where
  data : s'.data = s.data
  nread : s'.nread = s.nread
  nwrite : s'.nwrite = s.nwrite
  stored : s'.stored = s.stored
  handed : s'.handed = s.handed

theorem SameQueue.fifo (h : SameQueue s s') (hf : Fifo s) : Fifo s' := by
  have hcount : s'.count = s.count := by
    unfold State.count
    rw [h.nwrite, h.nread]
  refine ⟨?_, hcount ▸ hf.bound⟩
  rw [h.stored, h.handed, hf.lossless]
  unfold State.queue
  rw [hcount, h.data, h.nread]

/-! ## One byte in, one byte out -/

theorem nwrite_cell (s : State ι) : s.nwrite.toNat % PIPESIZE = (s.nread.toNat + s.count) % PIPESIZE := by
  have hsub := BitVec.toNat_sub s.nwrite s.nread
  unfold State.count PIPESIZE
  rw [hsub]
  have := s.nread.isLt
  omega

theorem full_iff (s : State ι) : s.full = true ↔ s.count = PIPESIZE := by
  simp only [State.full, State.count, PIPESIZE, beq_iff_eq]
  bv_omega

theorem empty_iff (s : State ι) : s.empty = true ↔ s.count = 0 := by
  simp only [State.empty, State.count, beq_iff_eq]
  bv_omega

theorem count_store (b : UInt8) (h : s.count < PIPESIZE) : (s.store b).count = s.count + 1 := by
  simp only [State.count, State.store, PIPESIZE] at *
  bv_omega

theorem count_take (h : 0 < s.count) : s.take.count + 1 = s.count := by
  simp only [State.count, State.take] at *
  bv_omega

theorem fifo_store (hf : Fifo s) (hroom : s.full = false) (b : UInt8) : Fifo (s.store b) := by
  have hlt : s.count < PIPESIZE := by
    refine Nat.lt_of_le_of_ne hf.bound fun hc => ?_
    rw [(full_iff s).mpr hc] at hroom
    cases hroom
  have hcount := count_store b hlt
  refine ⟨?_, by omega⟩
  unfold State.queue
  rw [hcount]
  change s.stored ++ [b] = s.handed ++
    contents PIPESIZE (Function.update s.data (s.nwrite.toNat % PIPESIZE) b) s.nread.toNat (s.count + 1)
  rw [nwrite_cell, contents_push hlt, hf.lossless, List.append_assoc]
  rfl

theorem fifo_take (hf : Fifo s) (hne : s.empty = false) : Fifo s.take := by
  have hpos : 0 < s.count := by
    refine Nat.pos_of_ne_zero fun hc => ?_
    rw [(empty_iff s).mpr hc] at hne
    cases hne
  have hcount := count_take hpos
  have hbound := hf.bound
  refine ⟨?_, by omega⟩
  change s.stored = (s.handed ++ [s.front]) ++ s.take.queue
  have hqueue : s.queue = s.front :: s.take.queue := by
    unfold State.queue
    rw [← hcount, contents_pop]
    refine congrArg (s.front :: ·) (contents_congr ?_)
    have hone : (1 : BitVec 32).toNat = 1 := rfl
    simp only [State.take, Nat.ModEq, BitVec.toNat_add, hone, PIPESIZE]
    omega
  rw [hf.lossless, hqueue, List.append_assoc]
  rfl

theorem fifo_init (c : BitVec 32) (data : Nat → UInt8) : Fifo (init c data : State ι) := by
  have hcount : (init c data : State ι).count = 0 := by simp [State.count, init]
  refine ⟨?_, by rw [hcount]; decide⟩
  unfold State.queue
  rw [hcount]
  rfl

/-! ## What a step does to the queue -/

variable [DecidableEq ι]

theorem acquire_some {pc : Pc} (h : s.acquire i pc = some s') :
    s.lock = none ∧ s' = { s.goto i pc with lock := some i } := by
  unfold State.acquire at h
  split at h
  · next hl => exact ⟨by simpa using hl, (Option.some.inj h).symm⟩
  · cases h

theorem wakeThen_some {c : Chan} {pc : Pc} (h : s.wakeThen i c pc = some s') :
    s.ptable = none ∧ s' = (s.wakeup c).goto i pc := by
  unfold State.wakeThen at h
  split at h
  · next hl => exact ⟨by simpa using hl, (Option.some.inj h).symm⟩
  · cases h

theorem fallAsleep_some {c : Chan} {back : Back} (h : s.fallAsleep i c back = some s') :
    s.ptable = none ∧ s' = { s.goto i (.doze c back) with lock := none, ptable := some i } := by
  unfold State.fallAsleep at h
  split at h
  · next hl => exact ⟨by simpa using hl, (Option.some.inj h).symm⟩
  · cases h

theorem step_queue (h : step s i = some s') :
    SameQueue s s' ∨ (s.full = false ∧ ∃ b, SameQueue (s.store b) s') ∨
    (s.empty = false ∧ SameQueue s.take s') := by
  unfold step at h
  split at h
  · obtain ⟨-, rfl⟩ := acquire_some h
    exact .inl ⟨rfl, rfl, rfl, rfl, rfl⟩
  · split at h
    · cases h
      exact .inl ⟨rfl, rfl, rfl, rfl, rfl⟩
    · split at h
      · split at h <;> cases h <;> exact .inl ⟨rfl, rfl, rfl, rfl, rfl⟩
      · next b _ hfull =>
        cases h
        exact .inr (.inl ⟨by simpa using hfull, b, rfl, rfl, rfl, rfl, rfl⟩)
  · obtain ⟨-, rfl⟩ := wakeThen_some h
    exact .inl ⟨rfl, rfl, rfl, rfl, rfl⟩
  · obtain ⟨-, rfl⟩ := fallAsleep_some h
    exact .inl ⟨rfl, rfl, rfl, rfl, rfl⟩
  · obtain ⟨-, rfl⟩ := wakeThen_some h
    exact .inl ⟨rfl, rfl, rfl, rfl, rfl⟩
  · obtain ⟨-, rfl⟩ := acquire_some h
    exact .inl ⟨rfl, rfl, rfl, rfl, rfl⟩
  · split at h
    · split at h <;> cases h <;> exact .inl ⟨rfl, rfl, rfl, rfl, rfl⟩
    · cases h
      exact .inl ⟨rfl, rfl, rfl, rfl, rfl⟩
  · obtain ⟨-, rfl⟩ := fallAsleep_some h
    exact .inl ⟨rfl, rfl, rfl, rfl, rfl⟩
  · split at h
    · next hg =>
      cases h
      exact .inr (.inr ⟨hg.2, rfl, rfl, rfl, rfl, rfl⟩)
    · cases h
      exact .inl ⟨rfl, rfl, rfl, rfl, rfl⟩
  · obtain ⟨-, rfl⟩ := wakeThen_some h
    exact .inl ⟨rfl, rfl, rfl, rfl, rfl⟩
  · obtain ⟨-, rfl⟩ := acquire_some h
    exact .inl ⟨rfl, rfl, rfl, rfl, rfl⟩
  · split at h <;> cases h <;> exact .inl ⟨rfl, rfl, rfl, rfl, rfl⟩
  · obtain ⟨-, rfl⟩ := wakeThen_some h
    exact .inl ⟨rfl, rfl, rfl, rfl, rfl⟩
  · cases h
    exact .inl ⟨rfl, rfl, rfl, rfl, rfl⟩
  · cases h
    exact .inl ⟨rfl, rfl, rfl, rfl, rfl⟩
  · obtain ⟨-, rfl⟩ := acquire_some h
    exact .inl ⟨rfl, rfl, rfl, rfl, rfl⟩
  all_goals cases h

theorem next_queue (h : next s a = some s') :
    SameQueue s s' ∨ (s.full = false ∧ ∃ b, SameQueue (s.store b) s') ∨
    (s.empty = false ∧ SameQueue s.take s') := by
  cases a with
  | write i buf | read i n | close i w =>
    simp only [next] at h
    split at h
    · cases h
      exact .inl ⟨rfl, rfl, rfl, rfl, rfl⟩
    · cases h
  | step i => exact step_queue h
  | sched i =>
    simp only [next] at h
    split at h
    · cases h
      exact .inl ⟨rfl, rfl, rfl, rfl, rfl⟩
    · cases h
  | kill i =>
    simp only [next] at h
    split at h
    · cases h
      exact .inl ⟨rfl, rfl, rfl, rfl, rfl⟩
    · cases h

theorem fifo_next (hf : Fifo s) (h : next s a = some s') : Fifo s' := by
  rcases next_queue h with hs | ⟨hroom, b, hs⟩ | ⟨hne, hs⟩
  · exact hs.fifo hf
  · exact hs.fifo (fifo_store hf hroom b)
  · exact hs.fifo (fifo_take hf hne)

/-- In every state of every run, wherever the counters started: what the readers have got is a prefix of
what was stored, the rest is in the pipe, and it is at most `PIPESIZE` bytes. -/
theorem pipe_is_fifo {c : BitVec 32} {data : Nat → UInt8} {tr : List (State ι × Act ι)}
    (hrun : Path (Next next) (init c data) tr s) :
    Along (fun s => s.handed <+: s.stored ∧ s.stored = s.handed ++ s.queue ∧
      (s.nwrite - s.nread).toNat ≤ PIPESIZE) tr s := by
  have hfifo : Along Fifo tr s :=
    along_of_all_steps (fun _ _ _ hf hs => fifo_next hf hs) hrun (fifo_init c data)
  refine hfifo.mono fun s hf => ⟨?_, hf.lossless, hf.bound⟩
  rw [hf.lossless]
  exact List.prefix_append _ _

/-- A write of two bytes takes `nwrite` past `2 ^ 32`, and a read gets the first of them. -/
theorem pipe_is_fifo_past_wrap :
    ∃ tr s, Path (Next next) (init 0xffffffff fun _ => 0 : State Bool) tr s ∧ s.nwrite = 1 ∧
      s.handed = [7] ∧ s.stored = [7, 8] ∧
      Along (fun s => s.handed <+: s.stored ∧ s.stored = s.handed ++ s.queue ∧
        (s.nwrite - s.nread).toNat ≤ PIPESIZE) tr s := by
  obtain ⟨s, hs⟩ : ∃ s, follow next (init 0xffffffff fun _ => 0 : State Bool)
      [.write false [7, 8], .step false, .step false, .step false, .step false, .step false, .step false,
        .read true 1, .step true, .step true, .step true] = some s := ⟨_, rfl⟩
  obtain ⟨tr, hrun, -⟩ := path_of_follow hs
  refine ⟨tr, s, hrun, ?_, ?_, ?_, pipe_is_fifo hrun⟩ <;> cases hs <;> rfl

end Xv6.Pipe
