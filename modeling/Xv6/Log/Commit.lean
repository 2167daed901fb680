import Xv6.Log.Invariant

/-!
# Commit, crash and recovery

Each disk write of `commit` and of `recover_from_log` keeps the invariant, and so does a crash
between any two of them.
-/

open Xv6.Run Function List

namespace Xv6.Log

variable {r : Region} {d : Nat → Block} {s s' : State}

/-! ## The disk writes of a commit -/

theorem Region.not_home_log {i : Nat} (h : i + 1 < r.size) : ¬ r.Home (r.start + 1 + i) := by
  simp only [Region.Home]; omega

theorem Region.not_home_start (h : 0 < r.size) : ¬ r.Home r.start := by
  simp only [Region.Home]; omega

theorem ne_of_home {x b : Nat} (hx : ¬ r.Home x) (hb : r.Home b) : b ≠ x := by
  rintro rfl
  exact hx hb

theorem content_of_clean (hi : Inv r d s) (b : Nat)
    (hc : ∀ buf, s.cache b = some buf → buf.dirty = false) : s.content b = s.disk b := by
  unfold State.content
  cases hb : s.cache b with
  | none => rfl
  | some buf => exact hi.clean b buf hb (hc buf hb)

theorem clean_bwrite (hi : Inv r d s) (x : Nat) (v : Block) (b : Nat) (buf : Buf)
    (hb : (s.bwrite x v).cache b = some buf) (hd : buf.dirty = false) :
    buf.data = (s.bwrite x v).disk b := by
  by_cases hbx : b = x
  · subst hbx
    simp only [State.bwrite, update_self, Option.some.injEq] at hb
    subst hb
    simp [State.bwrite]
  · simp only [State.bwrite, ne_eq, hbx, not_false_eq_true, update_of_ne] at hb ⊢
    exact hi.clean b buf hb hd

theorem dirty_bwrite {x : Nat} {v : Block} {b : Nat} {buf : Buf}
    (hb : (s.bwrite x v).cache b = some buf) (hd : buf.dirty = true) :
    b ≠ x ∧ s.cache b = some buf := by
  by_cases hbx : b = x
  · subst hbx
    simp only [State.bwrite, update_self, Option.some.injEq] at hb
    subst hb; cases hd
  · exact ⟨hbx, by simpa [State.bwrite, hbx] using hb⟩

theorem running_bwrite {x : Nat} {v : Block} (hi : Inv r d s) (hr : Running r d s)
    (hx : ¬ r.Home x) : Running r d (s.bwrite x v) where
  shows b hb := by
    rw [content_bwrite, if_neg (ne_of_home hx hb)]
    exact hr.shows b hb
  dirty b buf hb hd := hr.dirty b buf (dirty_bwrite hb hd).2 hd
  pinned b hb := by
    obtain ⟨buf, hc, hd⟩ := hr.pinned b hb
    exact ⟨buf, by simpa [State.bwrite, ne_of_home hx (hi.home b hb)] using hc, hd⟩
  logged := hr.logged
  mine := hr.mine

theorem inv_writeLog {tail b : Nat} (hi : Inv r d s) (hc : s.ctl = .writeLog tail)
    (hb : s.lh[tail]? = some b) :
    Inv r d { s.bwrite (r.start + 1 + tail) (s.content b) with ctl := .writeLog (tail + 1) } := by
  have hp := hi.phase
  rw [hc] at hp
  obtain ⟨h1, h2, h3, h4, h5, h6⟩ := hp
  have htail : tail < s.lh.length := (List.getElem?_eq_some_iff.mp hb).1
  have hx : ¬ r.Home (r.start + 1 + tail) := Region.not_home_log (by have := hi.room; omega)
  have hstart : r.start ≠ r.start + 1 + tail := by omega
  have hhead : (update s.disk (r.start + 1 + tail) (s.content b)) r.start =
      s.disk r.start := update_of_ne hstart _ _
  have hrun := running_bwrite (v := s.content b) hi h5 hx
  refine ⟨?_, clean_bwrite hi _ _, hi.split, hi.nodup, hi.home, hi.room, hi.count, hi.fresh, hi.bound,
    hi.reach, ?_, ?_, h3, h4, ⟨hrun.shows, hrun.dirty, hrun.pinned, hrun.logged, hrun.mine⟩, ?_⟩
  · constructor <;> (simp only [State.bwrite, hhead, h1]) <;> try simp
    · have := hi.room; omega
    · intro x hxh
      have := hi.recov.rest x hxh (by simp [h1])
      rw [update_of_ne (ne_of_home hx hxh)]
      exact this
  · simp only [State.bwrite, hhead, h1]
  · exact h2
  · intro i b' hib hb'
    change update s.disk (r.start + 1 + tail) (s.content b) (r.start + 1 + i) =
      (s.bwrite (r.start + 1 + tail) (s.content b)).content b'
    have hbh : r.Home b' := hi.home b' (mem_of_getElem? hb')
    rw [content_bwrite, if_neg (ne_of_home hx hbh)]
    by_cases hit : i = tail
    · subst hit
      rw [update_self]
      change s.lh[i]? = some b' at hb'
      rw [hb] at hb'
      rw [Option.some.inj hb']
    · rw [update_of_ne (by omega)]
      exact h6 i b' (by omega) hb'

theorem inv_logged {tail : Nat} (hi : Inv r d s) (hc : s.ctl = .writeLog tail)
    (hb : s.lh[tail]? = none) : Inv r d { s with ctl := .writeHead } := by
  have hp := hi.phase
  rw [hc] at hp
  obtain ⟨h1, h2, h3, h4, h5, h6⟩ := hp
  have hlen : s.lh.length ≤ tail := List.getElem?_eq_none_iff.mp hb
  refine ⟨hi.recov, hi.clean, hi.split, hi.nodup, hi.home, hi.room, hi.count, hi.fresh, hi.bound,
    hi.reach, h1, h2, h3, h4, ⟨h5.shows, h5.dirty, h5.pinned, h5.logged, h5.mine⟩, ?_⟩
  intro i b hib
  have hlt : i < s.lh.length := (List.getElem?_eq_some_iff.mp hib).1
  exact h6 i b (by omega) hib

theorem Inv.all_reached (hi : Inv r d s) (hq : Quiet s) (hr : Running r d s) (w : Write)
    (hw : w ∈ s.hist) : w.op ∈ s.commits.flatten := by
  rw [hi.split, mem_append] at hw
  rcases hw with hw | hw
  · exact reachedOps_subset (by simpa using (mem_filter.mp hw).2)
  · have hm := hr.mine w hw
    rw [hq.2.1, hq.2.2, append_nil, append_nil] at hm
    obtain ⟨l, hl, hop⟩ := mem_flatten.mp hm
    exact mem_flatten.mpr ⟨l, mem_of_mem_drop hl, hop⟩

theorem Inv.replay_unlogged (hi : Inv r d s) (hr : Running r d s) {b : Nat} (hb : b ∉ s.lh) :
    replay s.hist d b = replay s.done d b := by
  rw [hi.split, replay_append]
  apply replay_other
  rintro w hw rfl
  exact hb (hr.logged w hw)

/-- `write_head` is the commit point: the operations of the commit are on the disk from here on. -/
theorem inv_writeHead (hi : Inv r d s) (hc : s.ctl = .writeHead) :
    Inv r d { write_head r s with ctl := .install 0, reached := s.reached + 1 } := by
  have hp := hi.phase
  rw [hc] at hp
  obtain ⟨h1, h2, h3, h4, h5, h6⟩ := hp
  have hstart : ¬ r.Home r.start := Region.not_home_start (by have := hi.room; omega)
  generalize hs1 : ({ write_head r s with ctl := .install 0, reached := s.reached + 1 } : State) = s1
  have hdisk : s1.disk = update s.disk r.start (putHeader (s.content r.start) s.lh) := by
    rw [← hs1]; rfl
  have hlh : s1.lh = s.lh := by rw [← hs1]; rfl
  have hhist : s1.hist = s.hist := by rw [← hs1]; rfl
  have hhead : getHeader (s1.disk r.start) = s.lh := by
    rw [hdisk, update_self, getHeader_putHeader]
  have hall : ∀ w ∈ s1.hist, w.op ∈ s1.reachedOps := by
    intro w hw
    have : s1.reachedOps = s.commits.flatten := by
      rw [← hs1]
      change (s.commits.take (s.reached + 1)).flatten = _
      rw [← h4, take_length]
    rw [this]
    exact hi.all_reached h3 h5 w (hhist ▸ hw)
  have hcontent : ∀ b, r.Home b → s1.content b = replay s1.hist d b := by
    intro b hb
    rw [hhist, ← h5.shows b hb, ← hs1]
    exact (content_bwrite s r.start _ b).trans (if_neg (ne_of_home hstart hb))
  refine ⟨?_, ?_, ?_, ?_, ?_, ?_, ?_, ?_, ?_, ?_, ?_⟩
  · rw [done_of_all hall]
    refine ⟨by rw [hhead]; exact hi.nodup, by rw [hhead]; exact hi.home, by rw [hhead]; exact hi.room,
      ?_, ?_⟩
    · intro i b hb
      rw [hhead] at hb
      rw [hdisk, update_of_ne (by omega), h6 i b hb, hhist]
      exact h5.shows b (hi.home b (mem_of_getElem? hb))
    · intro b hb hn
      rw [hhead] at hn
      rw [hdisk, update_of_ne (ne_of_home hstart hb), hhist, hi.replay_unlogged h5 hn]
      exact hi.recov.rest b hb (by simp [h1])
  · rw [← hs1]; exact clean_bwrite hi _ _
  · rw [done_of_all hall, cur_of_all hall, append_nil]
  · rw [hlh]; exact hi.nodup
  · rw [hlh]; exact hi.home
  · rw [hlh]; exact hi.room
  · rw [← hs1]; exact hi.count
  · rw [← hs1]; exact hi.fresh
  · rw [← hs1]; exact hi.bound
  · rw [← hs1]; exact Nat.le_of_eq h4.symm
  · have hctl : s1.ctl = .install 0 := by rw [← hs1]
    rw [hctl]
    refine ⟨by rw [← hs1]; exact h2, by rw [← hs1]; exact h3, by rw [← hs1]; exact h4.symm,
      cur_of_all hall, hcontent, ?_, ?_, ?_⟩
    · rw [hlh, hhead]
    · intro i b hi0; omega
    · intro b buf hb hd
      rw [← hs1] at hb
      have hm := h5.dirty b buf (dirty_bwrite hb hd).2 hd
      obtain ⟨i, hib⟩ := mem_iff_getElem?.mp hm
      exact ⟨i, Nat.zero_le _, by rw [hlh]; exact hib⟩

/-! ## Installing, in a commit and in recovery -/

theorem content_log (hi : Inv r d s) {tail b : Nat}
    (hin : Installing (getHeader (s.disk r.start)) (replay s.done d) s tail)
    (hb : s.lh[tail]? = some b) : s.content (r.start + 1 + tail) = replay s.done d b := by
  have htail : tail < s.lh.length := (List.getElem?_eq_some_iff.mp hb).1
  have hx : ¬ r.Home (r.start + 1 + tail) := Region.not_home_log (by have := hi.room; omega)
  have hclean : ∀ buf, s.cache (r.start + 1 + tail) = some buf → buf.dirty = false := by
    intro buf hbuf
    by_contra hd
    obtain ⟨i, -, hib⟩ := hin.dirty _ buf hbuf (by simpa using hd)
    exact hx (hi.home _ (mem_of_getElem? hib))
  rw [content_of_clean hi _ hclean]
  exact hi.recov.logged tail b (by rw [← hin.lh]; exact hb)

theorem installing_step (hi : Inv r d s) {tail b : Nat}
    (hin : Installing (getHeader (s.disk r.start)) (replay s.done d) s tail)
    (hb : s.lh[tail]? = some b) :
    Recoverable r (s.bwrite b (s.content (r.start + 1 + tail))).disk (replay s.done d) ∧
    Installing (getHeader ((s.bwrite b (s.content (r.start + 1 + tail))).disk r.start))
      (replay s.done d) (s.bwrite b (s.content (r.start + 1 + tail))) (tail + 1) := by
  have hhome : r.Home b := hi.home b (mem_of_getElem? hb)
  have hpos : 0 < r.size := by have := hi.room; omega
  have hval := content_log hi hin hb
  have hhead : (s.bwrite b (s.content (r.start + 1 + tail))).disk r.start = s.disk r.start :=
    update_of_ne (ne_of_home (Region.not_home_start hpos) hhome).symm _ _
  have hrec := hi.recov
  constructor
  · refine ⟨by rw [hhead]; exact hrec.nodup, by rw [hhead]; exact hrec.home,
      by rw [hhead]; exact hrec.room, ?_, ?_⟩
    · intro i b' hb'
      rw [hhead] at hb'
      have hi' : i < (getHeader (s.disk r.start)).length := (List.getElem?_eq_some_iff.mp hb').1
      have hx : ¬ r.Home (r.start + 1 + i) := Region.not_home_log (by have := hrec.room; omega)
      change update s.disk b _ _ = _
      rw [update_of_ne (ne_of_home hx hhome).symm]
      exact hrec.logged i b' hb'
    · intro b' hb' hn
      rw [hhead, ← hin.lh] at hn
      have hne : b' ≠ b := by
        rintro rfl
        exact hn (mem_of_getElem? hb)
      change update s.disk b _ _ = _
      rw [update_of_ne hne]
      exact hrec.rest b' hb' (by rw [← hin.lh]; exact hn)
  · refine ⟨by rw [hhead]; exact hin.lh, ?_, ?_⟩
    · intro i b' hit hb'
      change update s.disk b _ b' = _
      by_cases hbb : b' = b
      · subst hbb
        rw [update_self, hval]
      · rw [update_of_ne hbb]
        refine hin.upto i b' ?_ hb'
        have hne : i ≠ tail := by
          rintro rfl
          exact hbb (Option.some.inj (hb'.symm.trans hb))
        omega
    · intro b' buf hb' hd
      obtain ⟨hne, hc⟩ := dirty_bwrite hb' hd
      obtain ⟨i, hti, hib⟩ := hin.dirty b' buf hc hd
      refine ⟨i, ?_, hib⟩
      have hne' : i ≠ tail := by
        rintro rfl
        exact hne (Option.some.inj (hib.symm.trans hb))
      omega

theorem installing_end (hi : Inv r d s) {tail : Nat}
    (hin : Installing (getHeader (s.disk r.start)) (replay s.done d) s tail)
    (hb : s.lh[tail]? = none) :
    (∀ b, r.Home b → s.disk b = replay s.done d b) ∧
    ∀ b buf, s.cache b = some buf → buf.dirty = false := by
  have hlen : s.lh.length ≤ tail := List.getElem?_eq_none_iff.mp hb
  constructor
  · intro b hbh
    by_cases hm : b ∈ s.lh
    · obtain ⟨i, hib⟩ := mem_iff_getElem?.mp hm
      have := (List.getElem?_eq_some_iff.mp hib).1
      exact hin.upto i b (by omega) hib
    · exact hi.recov.rest b hbh (by rw [← hin.lh]; exact hm)
  · intro b buf hbuf
    by_contra hd
    obtain ⟨i, hti, hib⟩ := hin.dirty b buf hbuf (by simpa using hd)
    have := (List.getElem?_eq_some_iff.mp hib).1
    omega

theorem recoverable_clear {disk D : Nat → Block} (hpos : 0 < r.size) (h : Block)
    (hD : ∀ b, r.Home b → disk b = D b) :
    Recoverable r (update disk r.start (putHeader h [])) D := by
  have hhead : getHeader (update disk r.start (putHeader h []) r.start) = [] := by
    rw [update_self, getHeader_putHeader]
  refine ⟨by rw [hhead]; simp, by rw [hhead]; simp, by rw [hhead]; simpa using hpos,
    by rw [hhead]; simp, ?_⟩
  intro b hb _
  rw [update_of_ne (ne_of_home (Region.not_home_start hpos) hb)]
  exact hD b hb

theorem inv_install {tail : Nat} (hi : Inv r d s) (hc : s.ctl = .install tail) :
    Inv r d (install_trans r s tail .install .clearHead) := by
  have hp := hi.phase
  rw [hc] at hp
  obtain ⟨h1, h2, h3, h4, h5, h6⟩ := hp
  unfold install_trans
  split
  · next b hb =>
    obtain ⟨hrec, hin⟩ := installing_step hi h6 hb
    refine ⟨hrec, clean_bwrite hi _ _, hi.split, hi.nodup, hi.home, hi.room, hi.count, hi.fresh,
      hi.bound, hi.reach, h1, h2, h3, h4, ?_, hin.lh, hin.upto, hin.dirty⟩
    intro x hx
    refine (content_bwrite s b _ x).trans ?_
    by_cases hxb : x = b
    · subst hxb
      have hdone : s.done = s.hist := by rw [hi.split, h4]; simp
      rw [if_pos rfl, content_log hi h6 hb, hdone]
      rfl
    · rw [if_neg hxb]; exact h5 x hx
  · next hb =>
    obtain ⟨hdisk, hclean⟩ := installing_end hi h6 hb
    have hpos : 0 < r.size := by have := hi.room; omega
    exact ⟨hi.recov, hi.clean, hi.split, by simp, by simp, hpos, hi.count, hi.fresh, hi.bound, hi.reach,
      h1, h2, h3, h4, h5, rfl, hdisk, hclean⟩

theorem inv_clearHead (hi : Inv r d s) (hc : s.ctl = .clearHead) :
    Inv r d { write_head r s with ctl := .idle, committing := false } := by
  have hp := hi.phase
  rw [hc] at hp
  obtain ⟨h1, h2, h3, h4, h5, h6, h7, h8⟩ := hp
  have hpos : 0 < r.size := by have := hi.room; omega
  have hstart : ¬ r.Home r.start := Region.not_home_start hpos
  have hrec := recoverable_clear hpos (s.content r.start) h7
  unfold write_head
  rw [h6]
  refine ⟨hrec, clean_bwrite hi _ _, hi.split, hi.nodup, hi.home, hi.room, hi.count, hi.fresh, hi.bound,
    hi.reach, ?_, rfl, h3, ?_, ?_, ?_, ?_, ?_⟩
  · simp [State.bwrite]
  · intro b hb
    exact (content_bwrite s r.start _ b).trans ((if_neg (ne_of_home hstart hb)).trans (h5 b hb))
  · intro b buf hb hd
    have := h8 b buf (dirty_bwrite hb hd).2
    rw [this] at hd; cases hd
  · intro b hb
    change b ∈ s.lh at hb
    rw [h6] at hb; simp at hb
  · intro w hw
    change w ∈ s.cur at hw
    rw [h4] at hw; simp at hw
  · intro w hw
    change w ∈ s.cur at hw
    rw [h4] at hw; simp at hw

/-! ## Crash and recovery -/

theorem inv_crash (hi : Inv r d s) : Inv r d (crash s) := by
  have hpos : 0 < r.size := by have := hi.room; omega
  have hsub : s.commits.flatten.Sublist (s.commits.flatten ++ s.ended ++ s.active) := by
    rw [append_assoc]
    exact sublist_append_left _ _
  have hids : (crash s).commits.flatten ++ (crash s).ended ++ (crash s).active =
      s.commits.flatten := by simp [crash]
  refine ⟨hi.recov, by simp [crash], hi.split, by simp [crash], by simp [crash], hpos, rfl, ?_, ?_,
    hi.reach, ⟨rfl, rfl, rfl⟩, rfl, rfl, rfl⟩
  · rw [hids]
    exact hi.fresh.sublist hsub
  · intro op hop
    exact hi.bound op (hsub.subset (hids ▸ hop))

theorem inv_readHead (hi : Inv r d s) (hc : s.ctl = .down) :
    Inv r d { s with lh := getHeader (s.content r.start), ctl := .recover 0 } := by
  have hp := hi.phase
  rw [hc] at hp
  obtain ⟨h1, h2, -, h4⟩ := hp
  have hcont : s.content r.start = s.disk r.start := by simp [State.content, h4]
  rw [hcont]
  refine ⟨hi.recov, hi.clean, hi.split, hi.recov.nodup, hi.recov.home, hi.recov.room, hi.count,
    hi.fresh, hi.bound, hi.reach, h1, h2, ⟨rfl, by simp, ?_⟩, ?_⟩
  · intro b buf hb
    simp [h4] at hb
  · intro b buf hb
    simp [h4] at hb

theorem inv_recover {tail : Nat} (hi : Inv r d s) (hc : s.ctl = .recover tail) :
    Inv r d (install_trans r s tail .recover .recoverClear) := by
  have hp := hi.phase
  rw [hc] at hp
  obtain ⟨h1, h2, h3, h4⟩ := hp
  unfold install_trans
  split
  · next b hb =>
    obtain ⟨hrec, hin⟩ := installing_step hi h3 hb
    refine ⟨hrec, clean_bwrite hi _ _, hi.split, hi.nodup, hi.home, hi.room, hi.count, hi.fresh,
      hi.bound, hi.reach, h1, h2, ⟨hin.lh, hin.upto, hin.dirty⟩, ?_⟩
    intro x buf hx
    by_contra hd
    exact hd (h4 x buf (dirty_bwrite hx (by simpa using hd)).2)
  · next hb =>
    obtain ⟨hdisk, hclean⟩ := installing_end hi h3 hb
    have hpos : 0 < r.size := by have := hi.room; omega
    exact ⟨hi.recov, hi.clean, hi.split, by simp, by simp, hpos, hi.count, hi.fresh, hi.bound,
      hi.reach, h1, h2, rfl, hdisk, hclean⟩

/-- The state in which `recover_from_log` returns. -/
structure Recovered (r : Region) (s s' : State) : Prop where
  disk : s'.disk = Function.update s.disk r.start (putHeader (s.content r.start) [])
  cache : s'.cache = Function.update s.cache r.start
    (some { data := putHeader (s.content r.start) [], dirty := false })
  lh : s'.lh = []
  outstanding : s'.outstanding = 0
  committing : s'.committing = false
  ctl : s'.ctl = .idle
  nextOp : s'.nextOp = s.nextOp
  active : s'.active = []
  ended : s'.ended = []
  commits : s'.commits = s.commits.take s.reached
  reached : s'.reached = s.reached
  hist : s'.hist = s.done

theorem recovered (hi : Inv r d s) (hc : s.ctl = .recoverClear)
    (h : recover_from_log r s = some s') : Recovered r s s' := by
  have hp := hi.phase
  rw [hc] at hp
  obtain ⟨⟨ho, ha, he⟩, h2, h3, -, -⟩ := hp
  simp only [recover_from_log, hc, write_head, State.bwrite, h3, Option.some.injEq] at h
  subst h
  exact ⟨rfl, rfl, rfl, ho, h2, rfl, rfl, ha, he, rfl, rfl, rfl⟩

theorem Recovered.reachedOps (h : Recovered r s s') : s'.reachedOps = s.reachedOps := by
  simp [State.reachedOps, h.commits, h.reached, take_take]

theorem inv_recovered (hi : Inv r d s) (hc : s.ctl = .recoverClear) (h : Recovered r s s') :
    Inv r d s' := by
  have hp := hi.phase
  rw [hc] at hp
  obtain ⟨-, -, -, hdisk, hclean⟩ := hp
  have hpos : 0 < r.size := by have := hi.room; omega
  have hall : ∀ w ∈ s'.hist, w.op ∈ s'.reachedOps := by
    intro w hw
    rw [h.hist] at hw
    rw [h.reachedOps]
    simpa using (mem_filter.mp hw).2
  have hdone : s'.done = s.done := (done_of_all hall).trans h.hist
  have hcur : s'.cur = [] := cur_of_all hall
  have hclean' : ∀ b buf, s'.cache b = some buf → buf.dirty = false := by
    intro b buf hb
    rw [h.cache] at hb
    by_contra hd
    exact hd (hclean b buf (dirty_bwrite (s := s) hb (by simpa using hd)).2)
  have hdata : ∀ b buf, s'.cache b = some buf → buf.dirty = false → buf.data = s'.disk b := by
    rw [h.cache, h.disk]
    exact clean_bwrite hi _ _
  have hsub : s'.commits.flatten.Sublist (s.commits.flatten ++ s.ended ++ s.active) := by
    have hcut : s.commits.flatten = s'.commits.flatten ++ (s.commits.drop s.reached).flatten := by
      rw [h.commits, ← flatten_append, take_append_drop]
    rw [hcut, append_assoc, append_assoc]
    exact sublist_append_left _ _
  have hids : s'.commits.flatten ++ s'.ended ++ s'.active = s'.commits.flatten := by
    simp [h.ended, h.active]
  have hlen : s'.reached = s'.commits.length := by
    rw [h.commits, h.reached, length_take]
    have := hi.reach
    omega
  have hrec : Recoverable r s'.disk (replay s'.done d) := by
    rw [h.disk, hdone]
    exact recoverable_clear hpos _ hdisk
  have hhead : getHeader (s'.disk r.start) = [] := by
    rw [h.disk, update_self, getHeader_putHeader]
  refine ⟨hrec, hdata, by simp [hcur, done_of_all hall], by simp [h.lh], by simp [h.lh],
    by simpa [h.lh] using hpos, by simp [h.outstanding, h.active], ?_, ?_, Nat.le_of_eq hlen, ?_⟩
  · rw [hids]
    exact hi.fresh.sublist hsub
  · intro op hop
    rw [h.nextOp]
    exact hi.bound op (hsub.subset (hids ▸ hop))
  · rw [h.ctl]
    refine ⟨hhead, h.committing, hlen, ?_, ?_, by simp [h.lh], by simp [hcur], by simp [hcur]⟩
    · intro b hb
      have hcont : s'.content b = s'.disk b := by
        unfold State.content
        split
        · next buf hbuf => exact hdata b buf hbuf (hclean' b buf hbuf)
        · rfl
      rw [hcont, hrec.rest b hb (by simp [hhead]), done_of_all hall]
    · intro b buf hb hd
      rw [hclean' b buf hb] at hd
      cases hd

/-! ## Every step -/

theorem inv_commit (hi : Inv r d s) (h : commit r s = some s') : Inv r d s' := by
  unfold commit at h
  split at h
  · next tail hc =>
    split at h
    · next b hb =>
      obtain rfl := Option.some.inj h
      exact inv_writeLog hi hc hb
    · next hb =>
      obtain rfl := Option.some.inj h
      exact inv_logged hi hc hb
  · next hc =>
    obtain rfl := Option.some.inj h
    exact inv_writeHead hi hc
  · next tail hc =>
    obtain rfl := Option.some.inj h
    exact inv_install hi hc
  · next hc =>
    obtain rfl := Option.some.inj h
    exact inv_clearHead hi hc
  · cases h

theorem inv_recover_from_log (hi : Inv r d s) (h : recover_from_log r s = some s') :
    Inv r d s' := by
  have h0 := h
  unfold recover_from_log at h
  split at h
  · next hc =>
    obtain rfl := Option.some.inj h
    exact inv_readHead hi hc
  · next tail hc =>
    obtain rfl := Option.some.inj h
    exact inv_recover hi hc
  · next hc => exact inv_recovered hi hc (recovered hi hc h0)
  · cases h

/-- The log does not run full between the two halves of a `log_write`. -/
def KeepsRoom (r : Region) (s : State) : Act → Prop
  | .log_write _ b _ => RoomFor r s b
  | _ => True

theorem next_up {a : Act} (h : next r s a = some s') :
    up r s a = some s' ∧ (a.isCrash = false → s.panicked = none) := by
  unfold next at h
  split at h
  · cases h
  · next hg =>
    refine ⟨h, fun ha => ?_⟩
    cases hp : s.panicked with
    | none => rfl
    | some msg => exact absurd ⟨by rw [hp]; rfl, ha⟩ hg

theorem next_of_up {a : Act} (hp : s.panicked = none) : next r s a = up r s a := by
  unfold next
  rw [if_neg (by simp [hp])]

theorem inv_next {a : Act} (hi : Inv r d s) (hroom : KeepsRoom r s a) (hn : next r s a = some s') :
    Inv r d s' := by
  have h := (next_up hn).1
  cases a with
  | begin_op => exact inv_begin_op hi h
  | log_check op =>
    simp only [up] at h
    split at h
    · next hg =>
      obtain rfl := Option.some.inj h
      exact inv_log_check hi hg.1
    · cases h
  | log_write op b data =>
    simp only [up] at h
    split at h
    · next hg =>
      obtain rfl := Option.some.inj h
      exact inv_log_write hi hg.1 hg.2.2.1 hroom
    · cases h
  | end_op op =>
    simp only [up] at h
    split at h
    · next hg => exact inv_end_op hi hg.1 h
    · cases h
  | fill b =>
    simp only [up] at h
    split at h
    · next hg =>
      obtain rfl := Option.some.inj h
      exact inv_sameBlocks hi (sameBlocks_fill (by simpa using hg.2)) hg.1
    · cases h
  | evict b =>
    simp only [up] at h
    split at h
    · next buf hb =>
      split at h
      · cases h
      · next hd =>
        obtain rfl := Option.some.inj h
        have hd : buf.dirty = false := by simpa using hd
        refine inv_sameBlocks hi (sameBlocks_evict hi hb hd) ?_
        intro hdown
        have hp := hi.phase
        rw [hdown] at hp
        simp [hp.2.2.2] at hb
    · cases h
  | commit => exact inv_commit hi h
  | crash =>
    obtain rfl := Option.some.inj h
    exact inv_crash hi
  | recover_from_log => exact inv_recover_from_log hi h

theorem inv_fresh (hpos : 0 < r.size) (h : Fresh r d s) : Inv r d s := by
  obtain ⟨hd, h0, hc, hlh, ho, hcom, hctl, -, -, ha, he, hcs, hr, hh⟩ := h
  have hhead : getHeader (s.disk r.start) = [] := getHeader_of_zero _ (by rw [hd]; exact h0)
  have hdone : s.done = [] := by simp [State.done, hh]
  have hcur : s.cur = [] := by simp [State.cur, hh]
  refine ⟨⟨by simp [hhead], by simp [hhead], by simpa [hhead] using hpos, by simp [hhead], ?_⟩,
    by simp [hc], by simp [hh, hdone, hcur], by simp [hlh], by simp [hlh], by simpa [hlh] using hpos,
    by simp [ho, ha], by simp [hcs, he, ha], by simp [hcs, he, ha], by simp [hr], ?_⟩
  · intro b _ _
    rw [hdone, hd]; rfl
  · rw [hctl]
    refine ⟨hhead, hcom, by simp [hr, hcs], ?_, by simp [hc], by simp [hlh], by simp [hcur],
      by simp [hcur]⟩
    intro b _
    simp only [State.content, hc, hh, hd]; rfl

end Xv6.Log
