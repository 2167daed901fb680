import Xv6.Log.Atomic

/-!
# Room in the log

`begin_op` reserves `MAXOPBLOCKS` blocks for each operation, out of `LOGSIZE`. A log of `LOGSIZE` blocks
has one block less for data, and `log_write` looks for room even for a block that is in the log. So
the room that is reserved is there for operations of `MAXOPBLOCKS - 1` blocks only.
-/

open Xv6.Run List

namespace Xv6.Log

variable {r : Region} {d : Nat → Block} {s s' : State} {a : Act} {tr : List (State × Act)}

/-- The blocks that `op` has logged. -/
def blocksOf (s : State) (op : Nat) : List Nat := (s.hist.filter fun w => w.op = op).map Write.block

/-- The blocks that the operations since the last commit have logged. -/
def groupBlocks (s : State) : List Nat :=
  (s.hist.filter fun w => w.op ∈ s.ended ++ s.active).map Write.block

/-- No operation logs more than `k` different blocks. -/
def AtMost (k : Nat) (s : State) : Act → Prop
  | .log_write op b _ => (blocksOf s op ++ [b]).dedup.length ≤ k
  | _ => True

/-- Since the last commit fewer different blocks than the log can hold have been logged, at both halves
of every `log_write`. A block that is among them already can be logged once more. -/
def RoomOk (r : Region) (s : State) : Act → Prop
  | .log_check _ => (groupBlocks s).dedup.length < r.size - 1
  | .log_write _ b _ => b ∈ groupBlocks s ∨ (groupBlocks s).dedup.length < r.size - 1
  | _ => True

/-- No `log_write` has panicked, and the header has no more blocks than the log. -/
def Safe (r : Region) (s : State) : Prop := s.panicked = none ∧ s.lh.length ≤ r.size - 1

/-! ## The header holds the blocks of the group -/

/-- `Inv`, and while operations can run the header has nothing but what they have logged. -/
structure RoomInv (r : Region) (d : Nat → Block) (s : State) : Prop where
  inv : Inv r d s
  panicked : s.panicked = none
  mine : s.ctl = .idle → ∀ b ∈ s.lh, b ∈ groupBlocks s

theorem mem_groupBlocks {b : Nat} :
    b ∈ groupBlocks s ↔ ∃ w ∈ s.hist, w.op ∈ s.ended ++ s.active ∧ w.block = b := by
  simp only [groupBlocks, mem_map, mem_filter, decide_eq_true_eq, and_assoc]

theorem Inv.group_logged (h : Inv r d s) (hc : s.ctl = .idle) {b : Nat} (hb : b ∈ groupBlocks s) :
    b ∈ s.lh := by
  obtain ⟨w, hw, hop, rfl⟩ := mem_groupBlocks.mp hb
  obtain ⟨-, -, -, hrun⟩ := h.idle hc
  refine hrun.logged w (mem_filter.mpr ⟨hw, ?_⟩)
  have hfresh := h.fresh
  rw [append_assoc] at hfresh
  have hdisj := (nodup_append.mp hfresh).2.2
  simpa using fun hr => hdisj w.op (reachedOps_subset hr) w.op hop rfl

theorem RoomInv.length_eq (h : RoomInv r d s) (hc : s.ctl = .idle) :
    s.lh.length = (groupBlocks s).dedup.length := by
  refine List.Perm.length_eq ((perm_ext_iff_of_nodup h.inv.nodup (nodup_dedup _)).mpr fun b => ?_)
  rw [mem_dedup]
  exact ⟨h.mine hc b, h.inv.group_logged hc⟩

theorem RoomInv.mem_iff (h : RoomInv r d s) (hc : s.ctl = .idle) (b : Nat) :
    b ∈ s.lh ↔ b ∈ groupBlocks s :=
  ⟨h.mine hc b, h.inv.group_logged hc⟩

theorem groupBlocks_mono (hh : ∀ w ∈ s.hist, w ∈ s'.hist)
    (hop : ∀ op ∈ s.ended ++ s.active, op ∈ s'.ended ++ s'.active) {b : Nat}
    (hb : b ∈ groupBlocks s) : b ∈ groupBlocks s' := by
  obtain ⟨w, hw, ho, rfl⟩ := mem_groupBlocks.mp hb
  exact mem_groupBlocks.mpr ⟨w, hh w hw, hop _ ho, rfl⟩

/-! ## What a step does to the group -/

def Act.isLog : Act → Bool
  | .log_check _ => true
  | .log_write _ _ _ => true
  | _ => false

theorem idle_cases (h : Inv r d s) (ha : a.isLog = false) (hn : next r s a = some s')
    (hc' : s'.ctl = .idle) :
    (s'.lh = [] ∧ s'.active = []) ∨
    s.ctl = .idle ∧ s'.lh = s.lh ∧ s'.hist = s.hist ∧
      ((s'.ended = s.ended ∧ s'.active = s.active) ∨
       (s.lh.length + (s.outstanding + 1) * MAXOPBLOCKS ≤ LOGSIZE ∧ s'.ended = s.ended ∧
          s'.active = s.nextOp :: s.active) ∨
       ∃ op ∈ s.active, s'.ended = s.ended ++ [op] ∧ s'.active = s.active.erase op ∧
          s'.active ≠ []) := by
  have hu := (next_up hn).1
  cases a with
  | log_check op => cases ha
  | log_write op b data => cases ha
  | begin_op =>
    simp only [up, begin_op] at hu
    split at hu
    · next hg =>
      obtain rfl := Option.some.inj hu
      exact .inr ⟨hc', rfl, rfl, .inr (.inl ⟨hg.2.2, rfl, rfl⟩)⟩
    · cases hu
  | end_op op =>
    simp only [up] at hu
    split at hu
    · next hg =>
      have hc := h.idle_of_active hg.1
      obtain ⟨-, he, hcases⟩ := end_op_cases hu
      have hlen : s'.active.length = s'.outstanding := by
        rw [he.active, length_erase_of_mem hg.1, ← h.count, he.count]
      rcases hcases with ⟨hz, hlh, -⟩ | ⟨-, -, -, -, hctl, -⟩ | ⟨-, hend, -, -, -, hz⟩
      · exact .inl ⟨he.lh.trans hlh, eq_nil_of_length_eq_zero (hlen.trans hz)⟩
      · rw [hctl] at hc'
        cases hc'
      · refine .inr ⟨hc, he.lh, he.hist, .inr (.inr ⟨op, hg.1, hend, he.active, fun hnil => hz ?_⟩)⟩
        rw [← hlen, hnil]
        rfl
    · cases hu
  | fill b =>
    simp only [up] at hu
    split at hu
    · obtain rfl := Option.some.inj hu
      exact .inr ⟨hc', rfl, rfl, .inl ⟨rfl, rfl⟩⟩
    · cases hu
  | evict b =>
    simp only [up] at hu
    split at hu
    · split at hu
      · cases hu
      · obtain rfl := Option.some.inj hu
        exact .inr ⟨hc', rfl, rfl, .inl ⟨rfl, rfl⟩⟩
    · cases hu
  | commit =>
    simp only [up, commit] at hu
    split at hu
    · split at hu <;> obtain rfl := Option.some.inj hu <;> cases hc'
    · obtain rfl := Option.some.inj hu
      cases hc'
    · obtain rfl := Option.some.inj hu
      unfold install_trans at hc'
      split at hc' <;> cases hc'
    · next hc =>
      obtain rfl := Option.some.inj hu
      have hp := h.phase
      rw [hc] at hp
      exact .inl ⟨hp.2.2.2.2.2.1, hp.2.1.2.1⟩
    · cases hu
  | crash =>
    obtain rfl := Option.some.inj hu
    cases hc'
  | recover_from_log =>
    simp only [up, recover_from_log] at hu
    split at hu
    · obtain rfl := Option.some.inj hu
      cases hc'
    · obtain rfl := Option.some.inj hu
      unfold install_trans at hc'
      split at hc' <;> cases hc'
    · next hc =>
      obtain rfl := Option.some.inj hu
      have hp := h.phase
      rw [hc] at hp
      exact .inl ⟨hp.2.2.1, hp.1.2.1⟩
    · cases hu

theorem panicked_next (ha : a.isLog = false) (hp : s.panicked = none) (hn : next r s a = some s') :
    s'.panicked = none := by
  have hu := (next_up hn).1
  cases a with
  | log_check op => cases ha
  | log_write op b data => cases ha
  | begin_op =>
    simp only [up, begin_op] at hu
    split at hu
    · obtain rfl := Option.some.inj hu
      exact hp
    · cases hu
  | end_op op =>
    simp only [up, end_op] at hu
    repeat' split at hu
    all_goals first
      | exact Option.some.inj hu ▸ hp
      | cases hu
  | fill b =>
    simp only [up] at hu
    split at hu
    · obtain rfl := Option.some.inj hu
      exact hp
    · cases hu
  | evict b =>
    simp only [up] at hu
    repeat' split at hu
    all_goals first
      | exact Option.some.inj hu ▸ hp
      | cases hu
  | commit =>
    simp only [up, commit, install_trans] at hu
    repeat' split at hu
    all_goals first
      | exact Option.some.inj hu ▸ hp
      | cases hu
  | crash =>
    obtain rfl := Option.some.inj hu
    rfl
  | recover_from_log =>
    simp only [up, recover_from_log, install_trans] at hu
    repeat' split at hu
    all_goals first
      | exact Option.some.inj hu ▸ hp
      | cases hu

/-- `log_check` panics exactly when the log is full: an open operation is counted. -/
theorem log_check_cases (h : Inv r d s) (hsize : r.size ≤ LOGSIZE) {op : Nat} (hop : op ∈ s.active) :
    (s.lh.length < r.size - 1 ∧ log_check r s op = { s with passed := op :: s.passed }) ∨
    (r.size - 1 ≤ s.lh.length ∧
      log_check r s op = { s with panicked := some "too big a transaction" }) := by
  unfold log_check
  split
  · next hfull => exact .inr ⟨by omega, rfl⟩
  · next hfull =>
    have hpos := length_pos_of_mem hop
    rw [if_neg (by rw [h.count]; omega)]
    exact .inl ⟨by omega, rfl⟩

theorem keepsRoom_of_roomOk (h : RoomInv r d s) (hok : RoomOk r s a) (hn : next r s a = some s') :
    KeepsRoom r s a := by
  cases a with
  | log_write op b data =>
    have hu := (next_up hn).1
    simp only [up] at hu
    split at hu
    · next hg =>
      have hc := h.inv.idle_of_active hg.1
      refine hok.imp (h.mem_iff hc b).mpr fun hlt => ?_
      rw [h.length_eq hc]
      omega
    · cases hu
  | _ => trivial

theorem roomInv_log_check (hsize : r.size ≤ LOGSIZE) (h : RoomInv r d s) {op : Nat}
    (hop : op ∈ s.active) (hok : (groupBlocks s).dedup.length < r.size - 1) :
    RoomInv r d (log_check r s op) := by
  have hinv := inv_log_check h.inv hop
  rcases log_check_cases h.inv hsize hop with ⟨-, he⟩ | ⟨hge, -⟩
  · rw [he] at hinv ⊢
    exact ⟨hinv, h.panicked, h.mine⟩
  · rw [h.length_eq (h.inv.idle_of_active hop)] at hge
    omega

theorem roomInv_next (hsize : r.size ≤ LOGSIZE) (h : RoomInv r d s) (hok : RoomOk r s a)
    (hn : next r s a = some s') : RoomInv r d s' := by
  have hinv := inv_next h.inv (keepsRoom_of_roomOk h hok hn) hn
  by_cases ha : a.isLog = false
  · refine ⟨hinv, panicked_next ha h.panicked hn, fun hc' b hb => ?_⟩
    rcases idle_cases h.inv ha hn hc' with ⟨hlh, -⟩ | ⟨hc, hlh, hh, hops⟩
    · rw [hlh] at hb
      cases hb
    · refine groupBlocks_mono (s := s) (fun w hw => hh ▸ hw) (fun op ho => ?_) (h.mine hc b (hlh ▸ hb))
      rcases hops with ⟨he, hact⟩ | ⟨-, he, hact⟩ | ⟨x, hx, he, hact, -⟩
      · rwa [he, hact]
      · rw [he, hact]
        rw [mem_append] at ho ⊢
        exact ho.imp_right (mem_cons_of_mem _)
      · rw [he, hact]
        by_cases hox : op = x
        · subst hox
          simp
        · simp only [mem_append, mem_singleton] at ho ⊢
          exact ho.imp .inl (mem_erase_of_ne hox).mpr
  · have hu := (next_up hn).1
    cases a with
    | log_check op =>
      simp only [up] at hu
      split at hu
      · next hg =>
        obtain rfl := Option.some.inj hu
        exact roomInv_log_check hsize h hg.1 hok
      · cases hu
    | log_write op b data =>
      simp only [up] at hu
      split at hu
      · next hg =>
        obtain rfl := Option.some.inj hu
        have hc := h.inv.idle_of_active hg.1
        refine ⟨hinv, h.panicked, fun _ x hx => ?_⟩
        rcases (mem_absorb _ _ _).mp hx with hx | rfl
        · refine groupBlocks_mono (s := s) ?_ ?_ (h.mine hc x hx)
          · exact fun w hw => mem_append_left _ hw
          · exact fun _ ho => ho
        · exact mem_groupBlocks.mpr ⟨⟨op, x, data⟩, mem_append_right _ (mem_singleton_self _),
            mem_append_right _ hg.1, rfl⟩
      · cases hu
    | _ => exact absurd rfl ha

theorem not_safe_next (hsize : r.size ≤ LOGSIZE) (h : RoomInv r d s) (hbad : ¬ RoomOk r s a)
    (hn : next r s a = some s') : ¬ Safe r s' := by
  have hu := (next_up hn).1
  cases a with
  | log_check op =>
    simp only [up] at hu
    split at hu
    · next hg =>
      obtain rfl := Option.some.inj hu
      rintro ⟨hp, -⟩
      rcases log_check_cases h.inv hsize hg.1 with ⟨hlt, -⟩ | ⟨-, he⟩
      · rw [h.length_eq (h.inv.idle_of_active hg.1)] at hlt
        exact hbad hlt
      · rw [he] at hp
        cases hp
    · cases hu
  | log_write op b data =>
    simp only [up] at hu
    split at hu
    · next hg =>
      obtain rfl := Option.some.inj hu
      have hc := h.inv.idle_of_active hg.1
      obtain ⟨hnew, hfull⟩ := not_or.mp hbad
      rintro ⟨-, hlen⟩
      rw [← h.mem_iff hc] at hnew
      rw [← h.length_eq hc] at hfull
      change (if b ∈ s.lh then s.lh else s.lh ++ [b]).length ≤ _ at hlen
      rw [if_neg hnew, length_append, length_singleton] at hlen
      omega
    · cases hu
  | _ => exact absurd trivial hbad

/-! ## Operations of nine blocks -/

/-- How many blocks `op` may still log. -/
def left (s : State) (op : Nat) : Nat := MAXOPBLOCKS - 1 - (blocksOf s op).dedup.length

/-- The reservation: what is logged and what may still be logged fits into the log. -/
def Reserved (s : State) : Prop :=
  s.ctl = .idle → s.lh.length + (s.active.map (left s)).sum + 2 ≤ LOGSIZE

theorem left_le (s : State) (op : Nat) : left s op ≤ MAXOPBLOCKS - 1 := Nat.sub_le _ _

theorem left_congr (h : s'.hist = s.hist) (op : Nat) : left s' op = left s op := by
  unfold left blocksOf
  rw [h]

theorem sum_left_le (s : State) (l : List Nat) : (l.map (left s)).sum ≤ l.length * (MAXOPBLOCKS - 1) := by
  induction l with
  | nil => simp
  | cons op l ih =>
    have := left_le s op
    simp only [map_cons, sum_cons, length_cons, Nat.succ_mul]
    omega

theorem sum_left_erase {op : Nat} (hop : op ∈ s.active) :
    left s op + ((s.active.erase op).map (left s)).sum = (s.active.map (left s)).sum := by
  have hperm := ((perm_cons_erase hop).map (left s)).sum_eq
  rw [hperm, map_cons, sum_cons]

theorem blocksOf_logged (h : RoomInv r d s) {op : Nat} (hop : op ∈ s.active) {b : Nat}
    (hb : b ∈ blocksOf s op) : b ∈ s.lh := by
  refine h.inv.group_logged (h.inv.idle_of_active hop) ?_
  obtain ⟨w, hw, rfl⟩ := mem_map.mp hb
  obtain ⟨hw, ho⟩ := mem_filter.mp hw
  refine mem_groupBlocks.mpr ⟨w, hw, mem_append_right _ ?_, rfl⟩
  rw [of_decide_eq_true ho]
  exact hop

theorem blocksOf_record (op b op' : Nat) (data : Block) :
    blocksOf (s.record op b data) op' = if op' = op then blocksOf s op ++ [b] else blocksOf s op' := by
  unfold blocksOf State.record
  dsimp only
  rw [filter_append]
  by_cases ho : op' = op
  · subst ho
    simp
  · simp [ho, Ne.symm ho]

theorem left_record (h : RoomInv r d s) {op b : Nat} {data : Block} (hop : op ∈ s.active)
    (hnine : (blocksOf s op ++ [b]).dedup.length ≤ MAXOPBLOCKS - 1) :
    left (s.record op b data) op ≤ left s op ∧
    (b ∉ s.lh → left (s.record op b data) op + 1 = left s op) := by
  unfold left
  rw [blocksOf_record, if_pos rfl]
  by_cases hb : b ∈ blocksOf s op
  · have hsame : (blocksOf s op ++ [b]).dedup.length = (blocksOf s op).dedup.length := by
      refine List.Perm.length_eq
        ((perm_ext_iff_of_nodup (nodup_dedup _) (nodup_dedup _)).mpr fun x => ?_)
      simp only [mem_dedup, mem_append, mem_singleton]
      exact ⟨fun hx => hx.elim id fun hx => hx ▸ hb, .inl⟩
    rw [hsame]
    exact ⟨Nat.le_refl _, fun hnew => absurd (blocksOf_logged h hop hb) hnew⟩
  · have hone : (blocksOf s op ++ [b]).dedup.length = (blocksOf s op).dedup.length + 1 := by
      have hperm : (blocksOf s op ++ [b]).dedup.Perm ([b] ++ blocksOf s op).dedup :=
        perm_append_comm.dedup
      rw [hperm.length_eq, singleton_append, dedup_cons_of_notMem hb, length_cons]
    rw [hone] at hnine ⊢
    exact ⟨by omega, fun _ => by omega⟩

/-- Between commits an operation is open whenever something is logged. -/
def Opened (s : State) : Prop := s.ctl = .idle → s.active = [] → s.lh = []

theorem reserved_record (h : RoomInv r d s) (hres : Reserved s) {op b : Nat} {data : Block}
    (hop : op ∈ s.active) (hnine : (blocksOf s op ++ [b]).dedup.length ≤ MAXOPBLOCKS - 1) :
    Reserved (s.record op b data) := by
  intro _
  have hc := h.inv.idle_of_active hop
  have hnodup : s.active.Nodup := (nodup_append.mp h.inv.fresh).2.1
  have hold := hres hc
  have hrest : (s.active.erase op).map (left (s.record op b data)) = (s.active.erase op).map (left s) := by
    refine map_congr_left fun x hx => ?_
    have hne : x ≠ op := fun hxo => (hnodup.not_mem_erase (hxo ▸ hx)).elim
    unfold left
    rw [blocksOf_record, if_neg hne]
  have hsum := sum_left_erase (show op ∈ (s.record op b data).active from hop)
  have hsum0 := sum_left_erase (s := s) hop
  obtain ⟨hle, hnew⟩ : left (s.record op b data) op ≤ left s op ∧ _ := left_record h hop hnine
  change (if b ∈ s.lh then s.lh else s.lh ++ [b]).length +
    ((s.active).map (left (s.record op b data))).sum + 2 ≤ LOGSIZE
  change left (s.record op b data) op + ((s.active.erase op).map (left (s.record op b data))).sum =
    ((s.active).map (left (s.record op b data))).sum at hsum
  rw [hrest] at hsum
  split
  · omega
  · next hb =>
    have := hnew hb
    rw [length_append, length_singleton]
    omega

theorem roomOk_of_reserved (hsize : r.size = LOGSIZE) (h : RoomInv r d s) (hres : Reserved s)
    (hn : next r s a = some s') : RoomOk r s a := by
  have hlt : ∀ op ∈ s.active, (groupBlocks s).dedup.length < r.size - 1 := by
    intro op hop
    have hc := h.inv.idle_of_active hop
    have := hres hc
    rw [← h.length_eq hc]
    omega
  have hu := (next_up hn).1
  cases a with
  | log_check op =>
    simp only [up] at hu
    split at hu
    · next hg => exact hlt op hg.1
    · cases hu
  | log_write op b data =>
    simp only [up] at hu
    split at hu
    · next hg => exact .inr (hlt op hg.1)
    · cases hu
  | _ => trivial

theorem reserved_next (hsize : r.size = LOGSIZE) (h : RoomInv r d s) (hopen : Opened s)
    (hres : Reserved s) (hnine : AtMost (MAXOPBLOCKS - 1) s a) (hn : next r s a = some s') :
    Opened s' ∧ Reserved s' := by
  by_cases ha : a.isLog = false
  · refine ⟨fun hc' hnil => ?_, fun hc' => ?_⟩
    · rcases idle_cases h.inv ha hn hc' with
        ⟨hlh, -⟩ | ⟨hc, hlh, -, ⟨-, hact⟩ | ⟨-, -, hact⟩ | ⟨op, -, -, -, hne⟩⟩
      · exact hlh
      · exact hlh.trans (hopen hc (hact.symm.trans hnil))
      · rw [hact] at hnil
        cases hnil
      · exact absurd hnil hne
    · rcases idle_cases h.inv ha hn hc' with ⟨hlh, hact⟩ | ⟨hc, hlh, hh, hops⟩
      · rw [hlh, hact]
        exact (by decide : 0 + 0 + 2 ≤ LOGSIZE)
      · have hold := hres hc
        have hleft : left s' = left s := funext fun op => left_congr hh op
        rw [hlh, hleft]
        rcases hops with ⟨-, hact⟩ | ⟨hadm, -, hact⟩ | ⟨op, hop, -, hact, -⟩
        · rw [hact]
          exact hold
        · -- A new operation: the tenth block of each open operation is spare.
          rw [hact, map_cons, sum_cons]
          have h1 := left_le s s.nextOp
          have h2 := sum_left_le s s.active
          rw [← h.inv.count] at h2
          simp only [MAXOPBLOCKS, LOGSIZE] at *
          by_cases hzero : s.outstanding = 0
          · have hnil : s.active = [] := eq_nil_of_length_eq_zero (h.inv.count.symm.trans hzero)
            rw [hopen hc hnil]
            simp only [length_nil]
            omega
          · omega
        · rw [hact]
          have := sum_left_erase (s := s) hop
          omega
  · have hu := (next_up hn).1
    cases a with
    | log_check op =>
      simp only [up] at hu
      split at hu
      · obtain rfl := Option.some.inj hu
        unfold log_check
        split
        · exact ⟨hopen, hres⟩
        · split <;> exact ⟨hopen, hres⟩
      · cases hu
    | log_write op b data =>
      simp only [up] at hu
      split at hu
      · next hg =>
        obtain rfl := Option.some.inj hu
        refine ⟨fun _ hnil => ?_, ?_⟩
        · have hmem := hg.1
          change s.active = [] at hnil
          rw [hnil] at hmem
          cases hmem
        · exact reserved_record h hres hg.1 hnine
      · cases hu
    | _ => exact absurd rfl ha

/-! ## Runs -/

theorem roomInv_fresh (hpos : 0 < r.size) (h : Fresh r d s) : RoomInv r d s := by
  have hlh : s.lh = [] := h.2.2.2.1
  refine ⟨inv_fresh hpos h, h.2.2.2.2.2.2.2.2.1, fun _ b hb => ?_⟩
  rw [hlh] at hb
  cases hb

/-- With a log of `LOGSIZE` blocks, no `log_write` panics and the header never has more blocks than the
log exactly when the operations since the last commit leave room at every `log_write`. When every
operation logs at most nine blocks, they do. -/
theorem reservation_iff {s0 : State} (hsize : r.size = LOGSIZE) (h0 : Fresh r d s0)
    (hrun : Path (Next (next r)) s0 tr s) :
    (Along (Safe r) tr s ↔ Meets (RoomOk r) tr) ∧
    (Meets (AtMost (MAXOPBLOCKS - 1)) tr → Along (Safe r) tr s) := by
  have hle := Nat.le_of_eq hsize
  have hsafe : ∀ s, RoomInv r d s → Safe r s := fun s h => ⟨h.panicked, Nat.le_sub_one_of_lt h.inv.room⟩
  have hfresh : RoomInv r d s0 := roomInv_fresh (by rw [hsize]; decide) h0
  refine ⟨along_iff_meets hsafe (fun _ _ _ h hok hs => roomInv_next hle h hok hs)
    (fun _ _ _ h hbad hs => not_safe_next hle h hbad hs) hrun hfresh, fun hnine => ?_⟩
  have hinv : Along (fun s => RoomInv r d s ∧ Opened s ∧ Reserved s) tr s := by
    refine along_of_step (fun s a s' h hok hs => ?_) hrun ⟨hfresh, ?_, ?_⟩ hnine
    · exact ⟨roomInv_next hle h.1 (roomOk_of_reserved hsize h.1 h.2.2 hs) hs,
        reserved_next hsize h.1 h.2.1 h.2.2 hok hs⟩
    · exact fun _ _ => h0.2.2.2.1
    · intro _
      rw [h0.2.2.2.1, h0.2.2.2.2.2.2.2.2.2.1]
      exact (by decide : 0 + 0 + 2 ≤ LOGSIZE)
  exact hinv.mono fun s h => hsafe s h.1

/-- One operation logs one block. -/
theorem reservation_one_block :
    ∃ tr s, Path (Next (next ⟨2, LOGSIZE⟩)) zeroDisk tr s ∧ Meets (AtMost (MAXOPBLOCKS - 1)) tr ∧
      s.lh = [40] ∧ Along (Safe ⟨2, LOGSIZE⟩) tr s := by
  obtain ⟨s1, hs1⟩ : ∃ s, follow (next ⟨2, LOGSIZE⟩) zeroDisk [.begin_op, .log_check 0] = some s :=
    ⟨_, rfl⟩
  obtain ⟨tr, hrun, htr⟩ := path_of_follow hs1
  obtain ⟨s2, hs2, hlh⟩ :
      ∃ s, Next (next ⟨2, LOGSIZE⟩) s1 (.log_write 0 40 fun _ => 7) s ∧ s.lh = [40] := by
    cases hs1
    exact ⟨_, rfl, rfl⟩
  have hone : (blocksOf s1 0 ++ [40]).dedup.length ≤ MAXOPBLOCKS - 1 := by
    cases hs1
    decide
  have hnine : Meets (AtMost (MAXOPBLOCKS - 1)) (tr ++ [(s1, .log_write 0 40 fun _ => 7)]) := by
    rw [meets_snoc]
    refine ⟨meets_of_labels htr fun a ha s => ?_, hone⟩
    rcases List.mem_pair.mp ha with rfl | rfl <;> trivial
  have hfresh : Fresh ⟨2, LOGSIZE⟩ zeroDisk.disk zeroDisk :=
    ⟨rfl, rfl, rfl, rfl, rfl, rfl, rfl, rfl, rfl, rfl, rfl, rfl, rfl, rfl⟩
  exact ⟨_, s2, hrun.snoc hs2, hnine, hlh, (reservation_iff rfl hfresh (hrun.snoc hs2)).2 hnine⟩

theorem atMost_of_turns (h : Turns s a) : AtMost MAXOPBLOCKS s a := by
  cases a with
  | log_write op b data =>
    obtain ⟨k, ps, hs, hk, rfl, rfl⟩ := h op b data rfl
    have hcount : ∀ k < 30, ((List.range k).filter fun j => j % 3 = k % 3).length ≤ 9 := by decide
    have hlen : (blocksOf s (k % 3)).length = ((List.range k).filter fun j => j % 3 = k % 3).length := by
      unfold blocksOf
      rw [hs.hist, filter_map, length_map, length_map]
      rfl
    refine Nat.le_trans (dedup_sublist _).length_le ?_
    rw [length_append, hlen]
    exact Nat.succ_le_succ (hcount k hk)
  | _ => trivial

/-- Three operations log ten blocks each, as `begin_op` has admitted them. The last of the thirty
`log_write`s panics, and when it is made at the same time as the one before it, the header has one
block more than the log. -/
theorem ten_blocks_each_overrun :
    (∃ tr s, Path (Next (next ⟨2, LOGSIZE⟩)) zeroDisk tr s ∧ Meets (AtMost MAXOPBLOCKS) tr ∧
      s.panicked = some "too big a transaction") ∧
    ∃ tr s, Path (Next (next ⟨2, LOGSIZE⟩)) zeroDisk tr s ∧ Meets (AtMost MAXOPBLOCKS) tr ∧
      s.lh.length = LOGSIZE := by
  constructor
  · obtain ⟨tr, s, hrun, hturns, hs⟩ := filling_run (k := 29) (by decide)
    have hfull : LOGSIZE ≤ s.lh.length ∨ (⟨2, LOGSIZE⟩ : Region).size - 1 ≤ s.lh.length := by
      rw [hs.lh]
      decide
    have hn : Next (next ⟨2, LOGSIZE⟩) s (.log_check 2)
        { s with panicked := some "too big a transaction" } := by
      rw [Next, next_of_up hs.panicked, up, if_pos ⟨by rw [hs.active]; decide, by rw [hs.passed]; decide⟩,
        log_check, if_pos hfull]
    refine ⟨_, _, hrun.snoc hn, ?_, rfl⟩
    rw [meets_snoc]
    exact ⟨fun x hx => atMost_of_turns (hturns x hx), trivial⟩
  · obtain ⟨tr, s, hrun, hturns, hs⟩ := overrun_run
    refine ⟨tr, s, hrun, fun x hx => atMost_of_turns (hturns x hx), ?_⟩
    rw [hs.lh]
    rfl

end Xv6.Log
