import Xv6.Bio.Invariant

/-!
# The buffer cache is a plain disk

Every `bread` returns what was stored last for its block, whatever buffers were recycled in between.
-/

open Xv6.Circle Xv6.Run Function

namespace Xv6.Bio

variable {ι β : Type} {d : Nat → β} {disksize : Nat} {s s' : State ι β} {i j : ι} {k : Fin NBUF}

structure Inv [Fintype ι] (d : Nat → β) (s : State ι β) : Prop where
  refs : Refs s
  data : Data d s

variable [DecidableEq ι]

/-! ## What a step does -/

inductive Move (s : State ι β) : Act ι β → State ι β → Prop
  | panic (a : Act ι β) (msg : String) : Move s a (s.panic msg)
  | hit (i : ι) (dev n : Nat) (k : Fin NBUF) : s.pc i = .idle → (s.buf k).dev = dev →
      (s.buf k).blockno = n →
      Move s (.bread i dev n)
        ((s.setBuf k { s.buf k with refcnt := (s.buf k).refcnt + 1 }).goto i (.get k dev n))
  | recycle (i : ι) (dev n : Nat) (k : Fin NBUF) : s.pc i = .idle →
      (∀ k', ¬ ((s.buf k').dev = dev ∧ (s.buf k').blockno = n)) →
      (s.buf k).refcnt = 0 → (s.buf k).dirty = false →
      Move s (.bread i dev n) ((s.setBuf k { s.buf k with
        dev := dev, blockno := n, valid := false, dirty := false, refcnt := 1 }).goto i (.get k dev n))
  | acquire (i : ι) (k : Fin NBUF) (dev n : Nat) : s.pc i = .get k dev n → s.lock k = none →
      Move s (.step i) { s.goto i (.fill k dev n) with lock := Function.update s.lock k (some i) }
  | read (i : ι) (k : Fin NBUF) (dev n : Nat) : s.pc i = .fill k dev n → (s.buf k).valid = false →
      (s.buf k).dirty = false → (s.buf k).dev = ROOTDEV →
      Move s (.step i) { (s.setBuf k { s.buf k with
        data := s.disk (s.buf k).blockno, valid := true }).goto i .idle with
        said := some ⟨dev, n, s.disk (s.buf k).blockno⟩ }
  | ready (i : ι) (k : Fin NBUF) (dev n : Nat) : s.pc i = .fill k dev n → (s.buf k).valid = true →
      Move s (.step i) { s.goto i .idle with said := some ⟨dev, n, (s.buf k).data⟩ }
  | unref (i : ι) (k : Fin NBUF) : s.pc i = .rel k → Move s (.step i) (unref s i k)
  | modify (i : ι) (k : Fin NBUF) (data : β) : s.pc i = .idle → s.lock k = some i →
      Move s (.modify i k data) { s.setBuf k { s.buf k with data := data } with
        touched := Function.update s.touched k true }
  | log_write (i : ι) (k : Fin NBUF) : s.pc i = .idle → s.lock k = some i →
      Move s (.log_write i k) (log_write s k)
  | bwrite (i : ι) (k : Fin NBUF) : s.pc i = .idle → s.lock k = some i →
      Move s (.bwrite i k) { s.setBuf k { s.buf k with dirty := false, valid := true } with
        disk := Function.update s.disk (s.buf k).blockno (s.buf k).data
        touched := Function.update s.touched k false
        stores := s.stores ++ [((s.buf k).blockno, (s.buf k).data)] }
  /-- The buffer that `bwrite` has marked is for a block past the end of the disk. -/
  | range (i : ι) (k : Fin NBUF) (msg : String) : s.pc i = .idle → s.lock k = some i →
      Move s (.bwrite i k) ((s.setBuf k { s.buf k with dirty := true }).panic msg)
  | release (i : ι) (k : Fin NBUF) : s.pc i = .idle → s.lock k = some i → s.touched k = false →
      Move s (.brelse i k) { s.goto i (.rel k) with lock := Function.update s.lock k none }

section Moves

variable [Fintype ι]

theorem Refs.searches (h : Refs s) (ok : Fin NBUF → Bool) :
    ∃ l : List (Fin NBUF), (∀ k, k ∈ l) ∧ search s.links.next ok (NBUF + 1) (s.links.next none) = some (l.find? ok) ∧
      search s.links.prev ok (NBUF + 1) (s.links.prev none) = some (l.reverse.find? ok) := by
  obtain ⟨l, hl, hall⟩ := h.linked
  have hlen : l.length < NBUF + 1 := by
    have := hl.nodup.length_le_card
    simp only [Fintype.card_fin] at this
    omega
  exact ⟨l, hall, hl.search_next ok hlen, hl.search_prev ok hlen⟩

theorem bget_move {dev n : Nat} (h : Refs s) (hpc : s.pc i = .idle) (hs : bget s i dev n = some s') :
    Move s (.bread i dev n) s' := by
  obtain ⟨l, hall, hfind, -⟩ := h.searches fun k => (s.buf k).dev = dev ∧ (s.buf k).blockno = n
  obtain ⟨l', -, -, hunused⟩ := h.searches fun k => (s.buf k).refcnt = 0 ∧ (s.buf k).dirty = false
  unfold bget at hs
  rw [show s.cached dev n = some (l.find? _) from hfind,
    show s.unused = some (l'.reverse.find? _) from hunused] at hs
  cases hk : l.find? fun k => (s.buf k).dev = dev ∧ (s.buf k).blockno = n with
  | some k =>
    rw [hk] at hs
    cases hs
    have hnames := List.find?_some hk
    simp only [decide_eq_true_eq] at hnames
    exact .hit i dev n k hpc hnames.1 hnames.2
  | none =>
    rw [hk] at hs
    have hnew : ∀ k', ¬ ((s.buf k').dev = dev ∧ (s.buf k').blockno = n) := fun k' => by
      have := List.find?_eq_none.mp hk k' (hall k')
      simpa only [decide_eq_true_eq] using this
    cases hu : l'.reverse.find? fun k => (s.buf k).refcnt = 0 ∧ (s.buf k).dirty = false with
    | some k =>
      rw [hu] at hs
      cases hs
      have hfree := List.find?_some hu
      simp only [decide_eq_true_eq] at hfree
      exact .recycle i dev n k hpc hnew hfree.1 hfree.2
    | none =>
      rw [hu] at hs
      cases hs
      exact .panic _ _

omit [Fintype ι] in
theorem iderw_reads (disksize : Nat) (hlock : s.lock k = some i) (hv : (s.buf k).valid = false)
    (hdirty : (s.buf k).dirty = false) :
    (∃ msg, iderw disksize s i k = s.panic msg) ∨ (s.buf k).dev = ROOTDEV ∧
      iderw disksize s i k = s.setBuf k { s.buf k with data := s.disk (s.buf k).blockno, valid := true } := by
  unfold iderw
  simp only [hlock, hv, hdirty, ne_eq, not_true_eq_false, Bool.false_eq_true, false_and, if_false]
  split
  · exact .inl ⟨_, rfl⟩
  · next hdev =>
    split
    · exact .inl ⟨_, rfl⟩
    · exact .inr ⟨not_not.mp hdev, rfl⟩

omit [Fintype ι] in
theorem iderw_writes (disksize : Nat) (hlock : s.lock k = some i) (hdirty : (s.buf k).dirty = true)
    (hdev : (s.buf k).dev = ROOTDEV) :
    (∃ msg, iderw disksize s i k = s.panic msg) ∨
      iderw disksize s i k = { s.setBuf k { s.buf k with dirty := false, valid := true } with
        disk := update s.disk (s.buf k).blockno (s.buf k).data
        touched := update s.touched k false
        stores := s.stores ++ [((s.buf k).blockno, (s.buf k).data)] } := by
  unfold iderw
  simp only [hlock, hdirty, hdev, ROOTDEV, ne_eq, not_true_eq_false, Bool.true_eq_false, and_false, if_false,
    if_true]
  split
  · exact .inl ⟨_, rfl⟩
  · exact .inr rfl

theorem fill_move {dev n : Nat} (h : Inv d s) (hpan : s.panicked = none) (hpc : s.pc i = .fill k dev n) :
    Move s (.step i) (fill disksize s i k dev n) := by
  unfold fill
  cases hv : (s.buf k).valid with
  | true =>
    simp only [if_true, hpan, Option.isSome_none, Bool.false_eq_true, if_false]
    exact .ready i k dev n hpc hv
  | false =>
    have hdirty : (s.buf k).dirty = false := by
      by_contra hc
      rw [h.data.dirty k (by simpa using hc)] at hv
      cases hv
    simp only [Bool.false_eq_true, if_false]
    rcases iderw_reads disksize (h.refs.owner i k dev n hpc) hv hdirty with ⟨msg, he⟩ | ⟨hdev, he⟩
    · rw [he]
      exact .panic _ msg
    · rw [he]
      have hmove := Move.read i k dev n hpc hv hdirty hdev
      simpa [State.setBuf, hpan, State.goto] using hmove

theorem bwrite_move (h : Inv d s) (hpc : s.pc i = .idle) :
    Move s (.bwrite i k) (bwrite disksize s i k) := by
  unfold bwrite
  split
  · exact .panic _ _
  · next hlock =>
    have hlock : s.lock k = some i := by simpa using hlock
    have hroot : (s.buf k).dev = ROOTDEV := by
      rcases h.data.held i k hlock with hv | ⟨dev, n, hp⟩
      · exact h.data.valid k hv
      · rw [hpc] at hp
        cases hp
    have hbuf : (s.setBuf k { s.buf k with dirty := true }).buf k = { s.buf k with dirty := true } :=
      update_self k _ s.buf
    rcases iderw_writes (s := s.setBuf k { s.buf k with dirty := true }) disksize hlock (by rw [hbuf])
      (by rw [hbuf]; exact hroot) with ⟨msg, he⟩ | he
    · rw [he]
      exact .range i k msg hpc hlock
    · rw [he, hbuf]
      have hmove := Move.bwrite i k hpc hlock
      simpa [State.setBuf] using hmove

theorem act_move {a : Act ι β} (h : Inv d s) (hpan : s.panicked = none) (hs : act disksize s a = some s') :
    Move s a s' := by
  cases a with
  | bread i dev n =>
    simp only [act] at hs
    split at hs
    · next hpc => exact bget_move h.refs hpc hs
    · cases hs
  | step i =>
    simp only [act, step] at hs
    split at hs
    · cases hs
    · next k dev n hpc =>
      split at hs
      · next hl =>
        cases hs
        exact .acquire i k dev n hpc (by simpa using hl)
      · cases hs
    · next k dev n hpc =>
      cases hs
      exact fill_move h hpan hpc
    · next k hpc =>
      cases hs
      exact .unref i k hpc
  | modify i k data =>
    simp only [act] at hs
    split at hs
    · next hk =>
      cases hs
      exact .modify i k data hk.1 hk.2
    · cases hs
  | log_write i k =>
    simp only [act] at hs
    split at hs
    · next hk =>
      cases hs
      exact .log_write i k hk.1 hk.2
    · cases hs
  | bwrite i k =>
    simp only [act] at hs
    split at hs
    · next hk =>
      cases hs
      exact bwrite_move h hk
    · cases hs
  | brelse i k =>
    simp only [act, brelse] at hs
    split at hs
    · next hk =>
      split at hs
      · cases hs
        exact .panic _ _
      · next hl =>
        cases hs
        exact .release i k hk.1 (by simpa using hl) hk.2
    · cases hs

/-! ## The invariant is kept -/

omit [Fintype ι] in
theorem held_goto (h : Data d s) (hpc : ∀ k dev n, s.pc i ≠ .fill k dev n) (pc : Pc) (hj : s.lock k = some j) :
    (s.buf k).valid = true ∨ ∃ dev n, update s.pc i pc j = .fill k dev n := by
  refine (h.held j k hj).imp_right fun ⟨dev, n, hp⟩ => ⟨dev, n, ?_⟩
  have hji : j ≠ i := by
    rintro rfl
    exact hpc k dev n hp
  exact (update_of_ne hji _ _).trans hp

omit [Fintype ι] [DecidableEq ι] in
theorem Data.locked (h : Data d s) (hpc : s.pc i = .idle) (hlock : s.lock k = some i) :
    (s.buf k).valid = true := by
  rcases h.held i k hlock with hv | ⟨dev, n, hp⟩
  · exact hv
  · rw [hpc] at hp
    cases hp

omit [Fintype ι] [DecidableEq ι] in
theorem Data.stored (h : Data d s) (hdev : (s.buf k).dev = ROOTDEV) (hdirty : (s.buf k).dirty = false) :
    s.disk (s.buf k).blockno = s.plain d (s.buf k).blockno := by
  refine h.clean _ fun k' hdev' hno => ?_
  rw [h.unique k k' (by rw [hdev]; decide) (hdev'.trans hdev.symm) hno]
  exact hdirty

theorem inv_hit {dev n : Nat} (h : Inv d s) (hpc : s.pc i = .idle) (hdev : (s.buf k).dev = dev)
    (hno : (s.buf k).blockno = n) :
    Inv d ((s.setBuf k { s.buf k with refcnt := (s.buf k).refcnt + 1 }).goto i (.get k dev n)) := by
  have hsame : SameData s ((s.setBuf k { s.buf k with refcnt := (s.buf k).refcnt + 1 }).goto i (.get k dev n)) :=
    sameData_refcnt rfl rfl rfl rfl
  refine ⟨refs_move h.refs rfl h.refs.linked (fun k' => ?_) (fun k' _ => ⟨hsame.dev k', hsame.blockno k'⟩)
    (fun _ _ _ hj => hj) ?_ ?_, hsame.inv h.data (fun j k' => held_goto h.data (by simp [hpc]) _)
    fun k' hk' => (h.data.touched k' hk').2⟩
  · have hcount : (update s.buf k { s.buf k with refcnt := (s.buf k).refcnt + 1 } k').refcnt =
        (s.buf k').refcnt + (decide (k = k')).toNat := by
      by_cases hk : k' = k
      · subst hk
        simp
      · simp [update_of_ne hk, Ne.symm hk]
    simp only [State.goto, State.setBuf, hcount, hpc, Pc.refers, Bool.toNat_false]
    omega
  · rintro k' dev' n' (hj | hj) <;> cases hj
    exact ⟨(hsame.dev k).trans hdev, (hsame.blockno k).trans hno⟩
  · intro k' dev' n' hj
    cases hj

theorem inv_recycle {dev n : Nat} (h : Inv d s) (hpc : s.pc i = .idle)
    (hnew : ∀ k', ¬ ((s.buf k').dev = dev ∧ (s.buf k').blockno = n)) (hfree : (s.buf k).refcnt = 0)
    (hdirty : (s.buf k).dirty = false) :
    Inv d ((s.setBuf k { s.buf k with
      dev := dev, blockno := n, valid := false, dirty := false, refcnt := 1 }).goto i (.get k dev n)) := by
  obtain ⟨hlock, -⟩ := h.refs.free hfree
  constructor
  · refine refs_move h.refs rfl h.refs.linked (fun k' => ?_) (fun k' hk' => ?_) (fun _ _ _ hj => hj) ?_ ?_
    · by_cases hk : k' = k
      · subst hk
        simp [State.goto, State.setBuf, hpc, Pc.refers, hlock, hfree]
      · simp [State.goto, State.setBuf, hpc, Pc.refers, update_of_ne hk, Ne.symm hk]
    · have hk : k' ≠ k := by
        rintro rfl
        exact hk' hfree
      simp [State.goto, State.setBuf, update_of_ne hk]
    · rintro k' dev' n' (hj | hj) <;> cases hj
      simp [State.goto, State.setBuf]
    · intro k' dev' n' hj
      cases hj
  · refine data_set h.data rfl rfl (fun _ _ => rfl) (fun j k' dev' n' _ hp => ?_) (fun j hj => ?_)
      (fun _ k' _ => hnew k') (by simp) (by simp) (fun ht => ?_) (fun _ => .inr ⟨rfl, rfl⟩) (.inl hdirty)
      (fun hroot _ => ?_) (by simp)
    · have hji : j ≠ i := by
        rintro rfl
        rw [hpc] at hp
        cases hp
      exact (update_of_ne hji _ _).trans hp
    · rw [hlock] at hj
      cases hj
    · exact absurd hlock (h.data.touched k ht).2
    · exact h.data.clean n fun k' hdev hno => absurd ⟨hdev.trans hroot.symm, hno⟩ (hnew k')

theorem inv_acquire {dev n : Nat} (h : Inv d s) (hpc : s.pc i = .get k dev n) (hlock : s.lock k = none) :
    Inv d { s.goto i (.fill k dev n) with lock := update s.lock k (some i) } := by
  have hkeep : ∀ k', k' ≠ k → update s.lock k (some i) k' = s.lock k' := fun k' hk =>
    update_of_ne hk _ _
  refine ⟨refs_move h.refs rfl h.refs.linked (fun k' => ?_) (fun _ _ => ⟨rfl, rfl⟩) (fun j k' _ hj => ?_) ?_ ?_,
    SameData.inv (s := s) ⟨fun _ => rfl, fun _ => rfl, fun _ => rfl, fun _ => rfl, fun _ => rfl, rfl, rfl, rfl⟩
    h.data (fun j k' hj => ?_) fun k' ht => ?_⟩
  · by_cases hk : k' = k
    · subst hk
      simp [State.goto, hpc, Pc.refers, hlock]
    · simp [State.goto, hpc, Pc.refers, hkeep k' hk, Ne.symm hk]
  · have hk : k' ≠ k := by
      rintro rfl
      rw [hlock] at hj
      cases hj
    exact (hkeep k' hk).trans hj
  · rintro k' dev' n' (hj | hj) <;> cases hj
    exact h.refs.names i k dev n (.inl hpc)
  · intro k' dev' n' hj
    cases hj
    exact update_self _ _ _
  · by_cases hk : k' = k
    · subst hk
      have hji : i = j := by simpa using hj
      exact .inr ⟨dev, n, by simp [State.goto, hji]⟩
    · exact held_goto h.data (by simp [hpc]) _ ((hkeep k' hk).symm.trans hj)
  · have hk : k' ≠ k := by
      rintro rfl
      exact (h.data.touched k' ht).2 hlock
    rw [show ({ s.goto i (.fill k dev n) with lock := update s.lock k (some i) } : State ι β).lock k' =
      s.lock k' from hkeep k' hk]
    exact (h.data.touched k' ht).2

theorem refs_return {dev n : Nat} (h : Refs s) (hpc : s.pc i = .fill k dev n) (r : Option (Returned β)) :
    Refs { s.goto i .idle with said := r } :=
  refs_move h rfl h.linked (fun k' => by simp [State.goto, hpc, Pc.refers]) (fun _ _ => ⟨rfl, rfl⟩)
    (fun _ _ _ hj => hj) (fun _ _ _ hj => by simp at hj) fun _ _ _ hj => by cases hj

omit [Fintype ι] in
theorem fill_other {dev n dev' n' : Nat} {k' : Fin NBUF} (hpc : s.pc i = .fill k dev n) (hk : k' ≠ k)
    (hj : s.pc j = .fill k' dev' n') : update s.pc i .idle j = .fill k' dev' n' := by
  have hji : j ≠ i := by
    rintro rfl
    rw [hpc] at hj
    cases hj
    exact hk rfl
  rw [update_of_ne hji, hj]

theorem inv_read {dev n : Nat} (h : Inv d s) (hpc : s.pc i = .fill k dev n) (hdirty : (s.buf k).dirty = false)
    (hdev : (s.buf k).dev = ROOTDEV) (r : Option (Returned β)) :
    Inv d { (s.setBuf k { s.buf k with data := s.disk (s.buf k).blockno, valid := true }).goto i .idle with
      said := r } := by
  constructor
  · have hset : Refs (s.setBuf k { s.buf k with data := s.disk (s.buf k).blockno, valid := true }) :=
      refs_set h.refs rfl rfl rfl rfl rfl rfl rfl
    exact refs_return hset hpc r
  · exact data_set h.data rfl rfl (fun _ _ => rfl) (fun j k' dev' n' hk hj => fill_other hpc hk hj)
      (fun _ _ => .inl rfl) (fun hd k' hk => h.data.alone k hd k' hk) (fun _ => hdev) (fun _ => rfl)
      (fun ht => ⟨rfl, (h.data.touched k ht).2⟩) (fun _ => .inr ⟨rfl, rfl⟩) (.inl hdirty)
      (fun _ _ => h.data.stored hdev hdirty) fun _ _ => h.data.stored hdev hdirty

theorem inv_ready {dev n : Nat} (h : Inv d s) (hpc : s.pc i = .fill k dev n) (hv : (s.buf k).valid = true)
    (r : Option (Returned β)) : Inv d { s.goto i .idle with said := r } := by
  refine ⟨refs_return h.refs hpc r, SameData.inv (s := s) ⟨fun _ => rfl, fun _ => rfl, fun _ => rfl,
    fun _ => rfl, fun _ => rfl, rfl, rfl, rfl⟩ h.data (fun j k' hj => ?_) fun k' ht => (h.data.touched k' ht).2⟩
  by_cases hk : k' = k
  · exact .inl (hk ▸ hv)
  · exact (h.data.held j k' hj).imp_right fun ⟨dev', n', hp⟩ => ⟨dev', n', fill_other hpc hk hp⟩

theorem inv_unref_links {p : Links (Fin NBUF)} (h : Inv d s) (hpc : s.pc i = .rel k)
    (hp : ∃ l, Linked p l ∧ ∀ k, k ∈ l) :
    Inv d { (s.setBuf k { s.buf k with refcnt := (s.buf k).refcnt - 1 }).goto i .idle with links := p } := by
  have hsame : SameData s
      { (s.setBuf k { s.buf k with refcnt := (s.buf k).refcnt - 1 }).goto i .idle with links := p } :=
    sameData_refcnt rfl rfl rfl rfl
  refine ⟨refs_move h.refs rfl hp (fun k' => ?_) (fun k' _ => ⟨hsame.dev k', hsame.blockno k'⟩)
    (fun _ _ _ hj => hj) (fun _ _ _ hj => by simp at hj) (fun _ _ _ hj => by cases hj),
    hsame.inv h.data (fun j k' => held_goto h.data (by simp [hpc]) _) fun k' ht => (h.data.touched k' ht).2⟩
  by_cases hk : k' = k
  · subst hk
    have hpos : (s.buf k').refcnt ≠ 0 := by
      intro hz
      have := (h.refs.free hz).2 i
      rw [hpc] at this
      simp [Pc.refers] at this
    simp only [State.goto, State.setBuf, update_self, hpc, Pc.refers, decide_true, Bool.toNat_true,
      Bool.toNat_false]
    omega
  · simp [State.goto, State.setBuf, hpc, Pc.refers, update_of_ne hk, Ne.symm hk]

theorem inv_unref (h : Inv d s) (hpc : s.pc i = .rel k) : Inv d (unref s i k) := by
  unfold unref
  dsimp only
  split
  · refine inv_unref_links h hpc ?_
    obtain ⟨l, hl, hall⟩ := h.refs.linked
    refine ⟨k :: l.erase k, linked_moveFront hl (hall k), fun k' => ?_⟩
    by_cases hk : k' = k
    · simp [hk]
    · exact List.mem_cons_of_mem k ((List.mem_erase_of_ne hk).mpr (hall k'))
  · exact inv_unref_links h hpc h.refs.linked

omit [DecidableEq ι] in
theorem inv_modify (h : Inv d s) (hpc : s.pc i = .idle) (hlock : s.lock k = some i) (data : β) :
    Inv d { s.setBuf k { s.buf k with data := data } with touched := update s.touched k true } := by
  have hv := h.data.locked hpc hlock
  refine ⟨refs_set h.refs rfl rfl rfl rfl rfl rfl rfl, data_set h.data rfl rfl
    (fun k' hk => update_of_ne hk _ _) (fun _ _ _ _ _ hj => hj) (fun _ _ => .inl hv)
    (fun hd k' hk => h.data.alone k hd k' hk) (h.data.valid k) (h.data.dirty k) (fun _ => ⟨hv, by simp [hlock]⟩)
    (fun _ => .inr ⟨rfl, rfl⟩) (.inr ⟨rfl, h.data.valid k hv⟩) (fun hdev hd => h.data.stored hdev hd)
    fun _ ht => ?_⟩
  simp at ht

omit [Fintype ι] [DecidableEq ι] in
theorem data_store {b : Buf β} (h : Data d s) (hv : (s.buf k).valid = true)
    (hbuf : s'.buf = update s.buf k b) (hlock : s'.lock = s.lock) (hpc : s'.pc = s.pc)
    (htouched : s'.touched = update s.touched k false)
    (hstores : s'.stores = s.stores ++ [((s.buf k).blockno, (s.buf k).data)])
    (hdev : b.dev = (s.buf k).dev) (hno : b.blockno = (s.buf k).blockno) (hbv : b.valid = true)
    (hdata : b.data = (s.buf k).data)
    (hdisk : b.dirty = true ∧ s'.disk = s.disk ∨
      s'.disk = update s.disk (s.buf k).blockno (s.buf k).data) : Data d s' := by
  have hroot := h.valid k hv
  have hplain : s'.plain d = update (s.plain d) (s.buf k).blockno (s.buf k).data := by
    unfold State.plain
    rw [hstores, Writes.apply_snoc]
  have hself : s'.touched k = false := by rw [htouched, update_self]
  refine data_set h hbuf hlock (fun k' hk => by rw [htouched, update_of_ne hk])
    (fun _ _ _ _ _ hj => hpc ▸ hj) (fun _ _ => .inl hbv) (fun hd k' hk => ?_) (fun _ => hdev.trans hroot)
    (fun _ => hbv) (fun ht => ?_) (fun n => ?_) (.inr ⟨hno.symm, hdev.trans hroot⟩) (fun _ hd => ?_) fun _ _ => ?_
  · rw [hdev, hno]
    exact h.alone k (hdev ▸ hd) k' hk
  · rw [hself] at ht
    cases ht
  · by_cases hn : n = b.blockno
    · exact .inl ⟨hdev.trans hroot, hn⟩
    · rw [hno] at hn
      refine .inr ⟨by rw [hplain, update_of_ne hn], ?_⟩
      rcases hdisk with ⟨-, hdisk⟩ | hdisk
      · rw [hdisk]
      · rw [hdisk, update_of_ne hn]
  · rcases hdisk with ⟨hdirty, -⟩ | hdisk
    · rw [hdirty] at hd
      cases hd
    · rw [hdisk, hplain, hno, update_self, update_self]
  · rw [hplain, hno, hdata, update_self]

theorem inv_release (h : Inv d s) (hpc : s.pc i = .idle) (hlock : s.lock k = some i)
    (htouched : s.touched k = false) :
    Inv d { s.goto i (.rel k) with lock := update s.lock k none } := by
  have hkeep : ∀ k', k' ≠ k → update s.lock k none k' = s.lock k' := fun k' hk =>
    update_of_ne hk _ _
  refine ⟨refs_move h.refs rfl h.refs.linked (fun k' => ?_) (fun _ _ => ⟨rfl, rfl⟩) (fun j k' hji hj => ?_)
    (fun _ _ _ hj => by simp at hj) (fun _ _ _ hj => by cases hj),
    SameData.inv (s := s) ⟨fun _ => rfl, fun _ => rfl, fun _ => rfl, fun _ => rfl, fun _ => rfl, rfl, rfl, rfl⟩
    h.data (fun j k' hj => ?_) fun k' ht => ?_⟩
  · by_cases hk : k' = k
    · subst hk
      simp [State.goto, hpc, Pc.refers, hlock]
    · simp [State.goto, hpc, Pc.refers, hkeep k' hk, Ne.symm hk]
  · have hk : k' ≠ k := by
      rintro rfl
      rw [hlock] at hj
      exact hji (Option.some.inj hj).symm
    exact (hkeep k' hk).trans hj
  · have hk : k' ≠ k := by
      rintro rfl
      simp at hj
    exact held_goto h.data (by simp [hpc]) _ ((hkeep k' hk).symm.trans hj)
  · have hk : k' ≠ k := by
      rintro rfl
      rw [htouched] at ht
      cases ht
    rw [show ({ s.goto i (.rel k) with lock := update s.lock k none } : State ι β).lock k' =
      s.lock k' from hkeep k' hk]
    exact (h.data.touched k' ht).2

theorem inv_move {a : Act ι β} (h : Inv d s) (hm : Move s a s') : Inv d s' := by
  have hrefs := h.refs
  have hdata := h.data
  cases hm with
  | panic a msg =>
    exact ⟨⟨hrefs.linked, hrefs.count, hrefs.names, hrefs.owner⟩, ⟨hdata.unique, hdata.held, hdata.valid,
      hdata.dirty, hdata.touched, hdata.clean, hdata.data⟩⟩
  | hit i dev n k hpc hdev hno => exact inv_hit h hpc hdev hno
  | recycle i dev n k hpc hnew hfree hdirty => exact inv_recycle h hpc hnew hfree hdirty
  | acquire i k dev n hpc hlock => exact inv_acquire h hpc hlock
  | read i k dev n hpc hv hdirty hdev => exact inv_read h hpc hdirty hdev _
  | ready i k dev n hpc hv => exact inv_ready h hpc hv _
  | unref i k hpc => exact inv_unref h hpc
  | modify i k data hpc hlock => exact inv_modify h hpc hlock data
  | log_write i k hpc hlock =>
    have hv := hdata.locked hpc hlock
    exact ⟨refs_set hrefs rfl rfl rfl rfl rfl rfl rfl,
      data_store hdata hv rfl rfl rfl rfl rfl rfl rfl hv rfl (.inl ⟨rfl, rfl⟩)⟩
  | bwrite i k hpc hlock =>
    exact ⟨refs_set hrefs rfl rfl rfl rfl rfl rfl rfl,
      data_store hdata (hdata.locked hpc hlock) rfl rfl rfl rfl rfl rfl rfl rfl rfl (.inr rfl)⟩
  | range i k msg hpc hlock =>
    have hv := hdata.locked hpc hlock
    exact ⟨refs_set hrefs rfl rfl rfl rfl rfl rfl rfl, data_set hdata rfl rfl (fun _ _ => rfl)
      (fun _ _ _ _ _ hj => hj) (fun _ _ => .inl hv) (fun hd k' hk => hdata.alone k hd k' hk) (hdata.valid k)
      (fun _ => hv) (hdata.touched k) (fun _ => .inr ⟨rfl, rfl⟩) (.inr ⟨rfl, hdata.valid k hv⟩)
      (fun _ hd => by cases hd) (hdata.data k)⟩
  | release i k hpc hlock htouched => exact inv_release h hpc hlock htouched

theorem Inv.hush (h : Inv d s) : Inv d { s with said := none } := by
  have hrefs := h.refs
  have hdata := h.data
  exact ⟨⟨hrefs.linked, hrefs.count, hrefs.names, hrefs.owner⟩, ⟨hdata.unique, hdata.held, hdata.valid,
    hdata.dirty, hdata.touched, hdata.clean, hdata.data⟩⟩

theorem next_move {a : Act ι β} (h : Inv d s) (hs : next disksize s a = some s') :
    Move { s with said := none } a s' := by
  unfold next at hs
  split at hs
  · cases hs
  · next hpan => exact act_move h.hush (by simpa using hpan) hs

/-- A buffer that a `bread` is about to return was not changed since it was stored. -/
def Fresh (s : State ι β) : Prop := ∀ i k dev n, s.pc i = .fill k dev n → s.touched k = false

omit [Fintype ι] in
theorem fresh_goto {pc : Pc} (hf : Fresh s) (hpc : s'.pc = update s.pc i pc)
    (hnot : ∀ k dev n, pc ≠ .fill k dev n) (htouched : ∀ k, s.touched k = false → s'.touched k = false) :
    Fresh s' := by
  intro j k dev n hj
  rw [hpc] at hj
  by_cases hji : j = i
  · subst hji
    rw [update_self] at hj
    exact absurd hj (hnot k dev n)
  · rw [update_of_ne hji] at hj
    exact htouched k (hf j k dev n hj)

theorem fresh_move {a : Act ι β} (h : Inv d s) (hf : Fresh s) (hm : Move s a s') : Fresh s' := by
  cases hm with
  | panic a msg => exact hf
  | hit i dev n k _ _ _ => exact fresh_goto hf rfl (by simp) fun _ ht => ht
  | recycle i dev n k _ _ _ _ => exact fresh_goto hf rfl (by simp) fun _ ht => ht
  | acquire i k dev n hpc hlock =>
    intro j k' dev' n' hj
    by_cases hji : j = i
    · subst hji
      simp only [State.goto, update_self] at hj
      cases hj
      by_contra ht
      exact (h.data.touched k (Bool.eq_true_of_not_eq_false ht)).2 hlock
    · simp only [State.goto, update_of_ne hji] at hj
      exact hf j k' dev' n' hj
  | read i k dev n _ _ _ _ => exact fresh_goto hf rfl (by simp) fun _ ht => ht
  | ready i k dev n _ _ => exact fresh_goto hf rfl (by simp) fun _ ht => ht
  | unref i k hpc =>
    unfold unref
    dsimp only
    split <;> exact fresh_goto hf rfl (by simp) fun _ ht => ht
  | modify i k data hpc hlock =>
    intro j k' dev n hj
    have hk : k' ≠ k := by
      -- the process that changes the buffer has its lock and has returned from `bread`
      rintro rfl
      have hown := h.refs.owner j k' dev n hj
      rw [hlock] at hown
      obtain rfl := Option.some.inj hown
      exact absurd (hpc.symm.trans hj) (by simp)
    exact (update_of_ne hk _ _).trans (hf j k' dev n hj)
  | log_write i k _ _ | bwrite i k _ _ =>
    intro j k' dev n hj
    by_cases hk : k' = k
    · rw [hk]
      exact update_self _ _ _
    · exact (update_of_ne hk _ _).trans (hf j k' dev n hj)
  | range i k msg _ _ => exact hf
  | release i k _ _ _ => exact fresh_goto hf rfl (by simp) fun _ ht => ht

omit [DecidableEq ι] in
theorem inv_init (p : Links (Fin NBUF)) (data : Fin NBUF → β) (d : Nat → β) :
    Inv d (init p data d : State ι β) := by
  refine ⟨⟨linked_binit p, fun k => ?_, fun i k dev n hi => ?_, fun i k dev n hi => ?_⟩, ⟨fun k k' hd => ?_,
    fun i k hl => ?_, fun k hv => ?_, fun k hd => ?_, fun k ht => ?_, fun n _ => rfl, fun k hv => ?_⟩⟩
  · simp [init, State.refs, Pc.refers]
  · simp [init] at hi
  · cases hi
  · exact absurd rfl hd
  · cases hl
  · cases hv
  · cases hd
  · cases ht
  · cases hv

/-! ## The cache is a disk -/

/-- What the cache is for, in every state. -/
structure CacheOk (d : Nat → β) (s : State ι β) : Prop where
  /-- What a `bread` has just returned is what was stored last for the block. -/
  returned : ∀ r ∈ s.said, r.dev = ROOTDEV ∧ r.data = s.plain d r.blockno
  linked : ∃ l, Linked s.links l ∧ ∀ k, k ∈ l
  unique : ∀ k k', (s.buf k).dev = ROOTDEV → (s.buf k').dev = ROOTDEV →
    (s.buf k').blockno = (s.buf k).blockno → k' = k
  /-- The loops of `bget` end. -/
  ends : ∀ dev n, (s.cached dev n).isSome ∧ s.unused.isSome

/-- A buffer that the step gives to another block was not in use, and not dirty. -/
def NeverRecycled (disksize : Nat) (s : State ι β) (a : Act ι β) : Prop :=
  ∀ s', next disksize s a = some s' → ∀ k,
    ((s'.buf k).dev, (s'.buf k).blockno) ≠ ((s.buf k).dev, (s.buf k).blockno) →
    (s.buf k).refcnt = 0 ∧ (s.buf k).dirty = false

theorem Inv.ends (h : Inv d s) (dev n : Nat) : (s.cached dev n).isSome ∧ s.unused.isSome := by
  obtain ⟨l, -, hcached, -⟩ := h.refs.searches fun k => (s.buf k).dev = dev ∧ (s.buf k).blockno = n
  obtain ⟨l', -, -, hunused⟩ := h.refs.searches fun k => (s.buf k).refcnt = 0 ∧ (s.buf k).dirty = false
  constructor
  · rw [show s.cached dev n = some (l.find? _) from hcached]
    rfl
  · rw [show s.unused = some (l'.reverse.find? _) from hunused]
    rfl

/-- Only a `bread` that returns says anything, and it says what is stored. -/
theorem said_move {a : Act ι β} (h : Inv d s) (hf : Fresh s) (hsaid : s.said = none) (hm : Move s a s') :
    ∀ r ∈ s'.said, r.dev = ROOTDEV ∧ r.data = s'.plain d r.blockno := by
  have hnone : ∀ s' : State ι β, s'.said = s.said → ∀ r ∈ s'.said, r.dev = ROOTDEV ∧
      r.data = s'.plain d r.blockno := by
    intro s' hs' r hr
    rw [hs', hsaid] at hr
    cases hr
  cases hm with
  | read i k dev n hpc hv hdirty hdev =>
    rintro r hr
    obtain rfl := Option.some.inj hr
    obtain ⟨hd, hn⟩ := h.refs.names i k dev n (.inr hpc)
    refine ⟨hd.symm.trans hdev, ?_⟩
    have hstored := h.data.stored hdev hdirty
    rw [hn] at hstored ⊢
    exact hstored
  | ready i k dev n hpc hv =>
    rintro r hr
    obtain rfl := Option.some.inj hr
    obtain ⟨hd, hn⟩ := h.refs.names i k dev n (.inr hpc)
    refine ⟨hd.symm.trans (h.data.valid k hv), ?_⟩
    have hdata := h.data.data k hv (hf i k dev n hpc)
    rw [hn] at hdata
    exact hdata
  | unref i k hpc =>
    refine hnone _ ?_
    unfold unref
    dsimp only
    split <;> rfl
  | _ => exact hnone _ rfl

omit [Fintype ι] in
theorem recycled_move {a : Act ι β} (hm : Move s a s') (k : Fin NBUF)
    (hk : ((s'.buf k).dev, (s'.buf k).blockno) ≠ ((s.buf k).dev, (s.buf k).blockno)) :
    (s.buf k).refcnt = 0 ∧ (s.buf k).dirty = false := by
  have hkeep : ∀ {b : Buf β} {k' : Fin NBUF}, s'.buf = update s.buf k' b →
      b.dev = (s.buf k').dev → b.blockno = (s.buf k').blockno → False := by
    intro b k' hbuf hdev hno
    apply hk
    rw [update_field hbuf Buf.dev hdev, update_field hbuf Buf.blockno hno]
  cases hm with
  | recycle i dev n k' hpc hnew hfree hdirty =>
    by_cases hkk : k = k'
    · exact hkk ▸ ⟨hfree, hdirty⟩
    · exact absurd (by simp [State.goto, State.setBuf, update_of_ne hkk]) hk
  | unref i k' hpc =>
    have hbuf : (unref s i k').buf =
        update s.buf k' { s.buf k' with refcnt := (s.buf k').refcnt - 1 } := by
      unfold unref
      dsimp only
      split <;> rfl
    exact (hkeep hbuf rfl rfl).elim
  | panic | acquire | ready | release => exact absurd rfl hk
  | _ => exact (hkeep rfl rfl rfl).elim

structure RunInv (d : Nat → β) (s : State ι β) : Prop where
  inv : Inv d s
  fresh : Fresh s
  said : ∀ r ∈ s.said, r.dev = ROOTDEV ∧ r.data = s.plain d r.blockno

theorem runInv_next {a : Act ι β} (h : RunInv d s) (hs : next disksize s a = some s') : RunInv d s' := by
  have hm := next_move h.inv hs
  exact ⟨inv_move h.inv.hush hm, fresh_move h.inv.hush h.fresh hm, said_move h.inv.hush h.fresh rfl hm⟩

theorem RunInv.cacheOk (h : RunInv d s) : CacheOk d s := by
  refine ⟨h.said, h.inv.refs.linked, fun k k' hk hk' hno => ?_, h.inv.ends⟩
  exact h.inv.data.unique k k' (by rw [hk]; decide) (hk'.trans hk.symm) hno

/-- The buffer cache is a plain disk. -/
theorem cache_is_plain_disk {p : Links (Fin NBUF)} {data : Fin NBUF → β} {tr : List (State ι β × Act ι β)}
    (hrun : Path (Next (next disksize)) (init p data d) tr s) :
    Along (CacheOk d) tr s ∧ Meets (NeverRecycled disksize) tr := by
  have h0 : RunInv d (init p data d : State ι β) :=
    ⟨inv_init p data d, fun _ _ _ _ _ => rfl, fun _ hr => by cases hr⟩
  have hall := along_of_all_steps (fun _ _ _ h hs => runInv_next h hs) hrun h0
  refine ⟨hall.mono fun _ h => h.cacheOk, fun x hx s' hs k hk => ?_⟩
  exact recycled_move (next_move (hall.1 x hx).inv hs) k hk

/-- One process changes block 5 and logs it, and the other one reads it. -/
theorem cache_is_plain_disk_logged : ∃ s, follow (next 1000)
      (init ⟨id, id⟩ (fun _ => 0) id : State (Fin 2) Nat)
      [.bread 0 1 5, .step 0, .step 0, .modify 0 ⟨0, by decide⟩ 77, .log_write 0 ⟨0, by decide⟩,
        .brelse 0 ⟨0, by decide⟩, .step 0, .bread 1 1 5, .step 1, .step 1] = some s ∧ s.said.map Returned.data = some 77 ∧ CacheOk id s := by
  have hrun : (follow (next 1000) (init ⟨id, id⟩ (fun _ => 0) id : State (Fin 2) Nat)
      [.bread 0 1 5, .step 0, .step 0, .modify 0 ⟨0, by decide⟩ 77, .log_write 0 ⟨0, by decide⟩,
        .brelse 0 ⟨0, by decide⟩, .step 0, .bread 1 1 5, .step 1, .step 1]).map (fun s => s.said.map Returned.data) = some (some 77) := by
    decide +kernel
  obtain ⟨s, hs, hsaid⟩ := Option.map_eq_some_iff.mp hrun
  obtain ⟨tr, hpath, -⟩ := path_of_follow hs
  exact ⟨s, hs, hsaid, (cache_is_plain_disk hpath).1.2⟩

end Moves

end Xv6.Bio
