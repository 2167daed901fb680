import Xv6.Lib.Run

/-!
# Process families

What the process table is for: processes that make children, exit and are reaped. A process lives in a
slot and has a pid of its own. When it exits, its children go to the root.
-/

open Function List

namespace Xv6.Ptable

inductive Stage
  | empty
  | embryo
  | alive
  | dead
  deriving DecidableEq

/-- `making i` is the slot that `i` makes a child in, and whether the child has its parent yet. `boot` is
the slot of the root while that is made. `used` are the pids given out so far. `forked` and `reaped` have
the pid of the child first. -/
structure Family (κ π : Type) where
  stage : κ → Stage
  pid : κ → π
  parent : κ → Option κ
  making : κ → Option (κ × Bool)
  root : Option κ
  boot : Option κ
  used : Set π
  forked : List (π × π)
  exited : List π
  reaped : List (π × π)

variable {κ π : Type} {f f' : Family κ π}

/-- The process has not been reaped. -/
abbrev Family.live (f : Family κ π) (k : κ) : Prop := f.stage k = .alive ∨ f.stage k = .dead

section Steps

variable [DecidableEq κ]

inductive Step (f : Family κ π) : Family κ π → Prop
  | bootAlloc (p : κ) (pid : π) : f.root = none → f.stage p = .empty → pid ∉ f.used →
      Step f { f with
        stage := Function.update f.stage p .embryo
        pid := Function.update f.pid p pid
        root := some p
        boot := some p
        used := insert pid f.used }
  | bootRun (p : κ) : f.boot = some p →
      Step f { f with stage := Function.update f.stage p .alive, boot := none }
  | alloc (i np : κ) (pid : π) : f.stage i = .alive → f.making i = none → f.stage np = .empty →
      pid ∉ f.used →
      Step f { f with
        stage := Function.update f.stage np .embryo
        pid := Function.update f.pid np pid
        making := Function.update f.making i (some (np, false))
        used := insert pid f.used }
  | drop (i np : κ) : f.making i = some (np, false) →
      Step f { f with
        stage := Function.update f.stage np .empty
        making := Function.update f.making i none }
  | name (i np : κ) : f.making i = some (np, false) →
      Step f { f with
        parent := Function.update f.parent np (some i)
        making := Function.update f.making i (some (np, true)) }
  | born (i np : κ) : f.making i = some (np, true) →
      Step f { f with
        stage := Function.update f.stage np .alive
        making := Function.update f.making i none
        forked := f.forked ++ [(f.pid np, f.pid i)] }
  | exit (i : κ) : f.stage i = .alive → f.making i = none → f.root ≠ some i →
      Step f { f with
        stage := Function.update f.stage i .dead
        parent := fun k => if f.parent k = some i then f.root else f.parent k
        exited := f.exited ++ [f.pid i] }
  | reap (i k : κ) (pid : π) : f.stage i = .alive → f.stage k = .dead → f.parent k = some i →
      Step f { f with
        stage := Function.update f.stage k .empty
        pid := Function.update f.pid k pid
        parent := Function.update f.parent k none
        reaped := f.reaped ++ [(f.pid k, f.pid i)] }

end Steps

/-! ## The shape of a family -/

structure Shape (f : Family κ π) : Prop where
  empty : ∀ k, f.stage k = .empty → f.parent k = none
  given : ∀ k, f.stage k ≠ .empty → f.pid k ∈ f.used
  distinct : ∀ k l, f.stage k ≠ .empty → f.stage l ≠ .empty → f.pid k = f.pid l → k = l
  making : ∀ i np named, f.making i = some (np, named) → f.stage i = .alive ∧ f.stage np = .embryo ∧
    f.root ≠ some np ∧ f.parent np = if named then some i else none
  maker : ∀ i j np b c, f.making i = some (np, b) → f.making j = some (np, c) → i = j
  boot : ∀ p, f.boot = some p → f.root = some p ∧ f.stage p = .embryo
  rooted : ∀ k, f.live k → ∃ r, f.root = some r ∧ f.stage r = .alive
  tended : ∀ k, f.live k → f.root ≠ some k → ∃ q, f.parent k = some q ∧ f.stage q = .alive

variable [DecidableEq κ]

omit [DecidableEq κ] in
theorem Shape.none_lives (h : Shape f) (hroot : f.root = none) (k : κ) : ¬ f.live k := by
  intro hk
  obtain ⟨r, hr, -⟩ := h.rooted k hk
  rw [hroot] at hr
  cases hr

theorem shape_step (h : Shape f) (hs : Step f f') : Shape f' := by
  cases hs with
  | bootAlloc p pid hroot hp hpid =>
    have hnone := h.none_lives hroot
    have hmake : ∀ i, f.making i = none := fun i => by
      by_contra hc
      obtain ⟨⟨np, b⟩, hm⟩ := Option.ne_none_iff_exists'.mp hc
      exact hnone i (.inl (h.making i np b hm).1)
    refine ⟨?_, ?_, ?_, ?_, ?_, ?_, ?_, ?_⟩
    · grind [update_apply, h.empty]
    · grind [update_apply, h.given]
    · grind [update_apply, h.given, h.distinct]
    · grind
    · grind
    · grind [update_apply]
    · grind [update_apply]
    · grind [update_apply]
  | bootRun p hb =>
    obtain ⟨hr, hp⟩ := h.boot p hb
    refine ⟨?_, ?_, ?_, ?_, ?_, ?_, ?_, ?_⟩
    · grind [update_apply, h.empty]
    · grind [update_apply, h.given]
    · grind [update_apply, h.distinct]
    · grind [update_apply, h.making]
    · grind [h.maker]
    · grind
    · grind [update_apply]
    · grind [update_apply, h.tended]
  | alloc i np pid hi hm hnp hpid =>
    obtain ⟨r, hr, hra⟩ := h.rooted i (.inl hi)
    have hfree : ∀ j b, f.making j ≠ some (np, b) := fun j b hj => by
      have := (h.making j np b hj).2.1
      rw [hnp] at this
      cases this
    refine ⟨?_, ?_, ?_, ?_, ?_, ?_, ?_, ?_⟩
    · grind [update_apply, h.empty]
    · grind [update_apply, h.given]
    · grind [update_apply, h.given, h.distinct]
    · grind [update_apply, h.empty, h.making]
    · grind [update_apply, h.maker]
    · grind [update_apply, h.boot]
    · grind [update_apply]
    · grind [update_apply, h.tended]
  | drop i np hm =>
    obtain ⟨hi, hnp, hroot, hpar⟩ := h.making i np _ hm
    obtain ⟨r, hr, hra⟩ := h.rooted i (.inl hi)
    refine ⟨?_, ?_, ?_, ?_, ?_, ?_, ?_, ?_⟩
    · grind [update_apply, h.empty]
    · grind [update_apply, h.given]
    · grind [update_apply, h.distinct]
    · grind [update_apply, h.making, h.maker]
    · grind [update_apply, h.maker]
    · grind [update_apply, h.boot]
    · grind [update_apply]
    · grind [update_apply, h.tended]
  | name i np hm =>
    obtain ⟨hi, hnp, hroot, hpar⟩ := h.making i np _ hm
    refine ⟨?_, h.given, h.distinct, ?_, ?_, h.boot, h.rooted, ?_⟩
    · grind [update_apply, h.empty]
    · grind [update_apply, h.making, h.maker]
    · grind [update_apply, h.maker]
    · grind [update_apply, h.tended]
  | born i np hm =>
    obtain ⟨hi, hnp, hroot, hpar⟩ := h.making i np _ hm
    obtain ⟨r, hr, hra⟩ := h.rooted i (.inl hi)
    refine ⟨?_, ?_, ?_, ?_, ?_, ?_, ?_, ?_⟩
    · grind [update_apply, h.empty]
    · grind [update_apply, h.given]
    · grind [update_apply, h.distinct]
    · grind [update_apply, h.making, h.maker]
    · grind [update_apply, h.maker]
    · grind [update_apply, h.boot]
    · grind [update_apply]
    · grind [update_apply, h.tended]
  | exit i hi hm hroot =>
    obtain ⟨r, hr, hra⟩ := h.rooted i (.inl hi)
    refine ⟨?_, ?_, ?_, ?_, h.maker, ?_, ?_, ?_⟩
    · grind [update_apply, h.empty]
    · grind [update_apply, h.given]
    · grind [update_apply, h.distinct]
    · grind [update_apply, h.making]
    · grind [update_apply, h.boot]
    · grind [update_apply]
    · grind [update_apply, h.tended]
  | reap i k pid hi hk hpar =>
    obtain ⟨r, hr, hra⟩ := h.rooted i (.inl hi)
    refine ⟨?_, ?_, ?_, ?_, h.maker, ?_, ?_, ?_⟩
    · grind [update_apply, h.empty]
    · grind [update_apply, h.given]
    · grind [update_apply, h.distinct]
    · grind [update_apply, h.making]
    · grind [update_apply, h.boot]
    · grind [update_apply]
    · grind [update_apply, h.tended]

/-! ## Its history -/

/-- Process `k` has a living parent: its creator, or the root after the creator has exited. -/
def Family.Child (f : Family κ π) (k : κ) : Prop :=
  ∃ q cr, f.parent k = some q ∧ f.stage q = .alive ∧ (f.pid k, cr) ∈ f.forked ∧
    (f.pid q = cr ∨ f.root = some q ∧ cr ∈ f.exited)

structure History (f : Family κ π) : Prop where
  fresh : ∀ k, f.stage k = .embryo → f.pid k ∉ f.forked.map Prod.fst ∧ f.pid k ∉ f.exited
  alive : ∀ k, f.stage k = .alive → f.pid k ∉ f.exited
  dead : ∀ k, f.stage k = .dead → f.pid k ∈ f.exited
  child : ∀ k, f.live k → f.root ≠ some k → f.Child k ∧ f.pid k ∉ f.reaped.map Prod.fst
  kept : ∀ c cr, (c, cr) ∈ f.forked →
    c ∈ f.reaped.map Prod.fst ∨ ∃ k, f.live k ∧ f.root ≠ some k ∧ f.pid k = c
  used : ∀ c cr, (c, cr) ∈ f.forked → c ∈ f.used
  exited_used : ∀ c ∈ f.exited, c ∈ f.used
  creator : ∀ c cr cr', (c, cr) ∈ f.forked → (c, cr') ∈ f.forked → cr = cr'
  reaped : ∀ c q, (c, q) ∈ f.reaped → ∃ cr, (c, cr) ∈ f.forked ∧ c ∈ f.exited ∧
    (q = cr ∨ (∃ r, f.root = some r ∧ f.stage r = .alive ∧ q = f.pid r) ∧ cr ∈ f.exited)
  once : (f.reaped.map Prod.fst).Nodup

omit [DecidableEq κ] in
theorem Family.Child.mono {k : κ} (h : f.Child k) (hpar : f'.parent k = f.parent k)
    (hpid : f'.pid k = f.pid k)
    (halive : ∀ q, f.parent k = some q → f.stage q = .alive → f'.stage q = .alive ∧ f'.pid q = f.pid q)
    (hroot : f'.root = f.root) (hforked : f.forked ⊆ f'.forked) (hexited : f.exited ⊆ f'.exited) :
    f'.Child k := by
  obtain ⟨q, cr, hq, hqa, hmem, hcr⟩ := h
  obtain ⟨hqa', hqp⟩ := halive q hq hqa
  refine ⟨q, cr, hpar.trans hq, hqa', hpid ▸ hforked hmem, ?_⟩
  rw [hqp, hroot]
  exact hcr.imp_right fun hc => ⟨hc.1, hexited hc.2⟩

theorem history_step (h : Shape f) (hh : History f) (hs : Step f f') : History f' := by
  cases hs with
  | bootAlloc p pid hroot hp hpid =>
    have hnone := h.none_lives hroot
    refine ⟨?_, ?_, ?_, ?_, ?_, ?_, ?_, hh.creator, ?_, hh.once⟩
    · grind [update_apply, hh.fresh, hh.used, hh.exited_used]
    · grind [update_apply]
    · grind [update_apply]
    · grind [update_apply]
    · grind [hh.kept]
    · grind [hh.used]
    · grind [hh.exited_used]
    · grind [hh.reaped]
  | bootRun p hb =>
    obtain ⟨hr, hp⟩ := h.boot p hb
    refine ⟨?_, ?_, ?_, ?_, ?_, hh.used, hh.exited_used, hh.creator, ?_, hh.once⟩
    · grind [update_apply, hh.fresh]
    · have hnex := (hh.fresh p hp).2
      grind [update_apply, hh.alive]
    · grind [update_apply, hh.dead]
    · intro k hk hkr
      have hkp : k ≠ p := by rintro rfl; exact hkr hr
      obtain ⟨hc, hnr⟩ := hh.child k (by grind [update_apply]) hkr
      exact ⟨hc.mono rfl rfl (by grind [update_apply]) rfl (fun _ h => h) fun _ h => h, hnr⟩
    · grind [update_apply, hh.kept]
    · grind [update_apply, hh.reaped]
  | alloc i np pid hi hm hnp hpid =>
    obtain ⟨r, hr, hra⟩ := h.rooted i (.inl hi)
    refine ⟨?_, ?_, ?_, ?_, ?_, ?_, ?_, hh.creator, ?_, hh.once⟩
    · grind [update_apply, hh.fresh, hh.used, hh.exited_used]
    · grind [update_apply, hh.alive]
    · grind [update_apply, hh.dead]
    · intro k hk hkr
      have hkp : k ≠ np := by rintro rfl; grind [update_apply]
      obtain ⟨hc, hnr⟩ := hh.child k (by grind [update_apply]) hkr
      have hpid : update f.pid np pid k = f.pid k := update_of_ne hkp _ _
      refine ⟨hc.mono rfl hpid (by grind [update_apply]) rfl (fun _ h => h) fun _ h => h, ?_⟩
      change update f.pid np pid k ∉ _
      rwa [hpid]
    · grind [update_apply, hh.kept]
    · grind [hh.used]
    · grind [hh.exited_used]
    · grind [update_apply, hh.reaped]
  | drop i np hm =>
    obtain ⟨hi, hnp, hroot, hpar⟩ := h.making i np _ hm
    refine ⟨?_, ?_, ?_, ?_, ?_, hh.used, hh.exited_used, hh.creator, ?_, hh.once⟩
    · grind [update_apply, hh.fresh]
    · grind [update_apply, hh.alive]
    · grind [update_apply, hh.dead]
    · intro k hk hkr
      have hkp : k ≠ np := by rintro rfl; grind [update_apply]
      obtain ⟨hc, hnr⟩ := hh.child k (by grind [update_apply]) hkr
      exact ⟨hc.mono rfl rfl (by grind [update_apply]) rfl (fun _ h => h) fun _ h => h, hnr⟩
    · grind [update_apply, hh.kept]
    · grind [update_apply, hh.reaped]
  | name i np hm =>
    obtain ⟨hi, hnp, hroot, hpar⟩ := h.making i np _ hm
    refine ⟨hh.fresh, hh.alive, hh.dead, ?_, hh.kept, hh.used, hh.exited_used, hh.creator, hh.reaped,
      hh.once⟩
    intro k hk hkr
    have hkp : k ≠ np := by rintro rfl; grind
    obtain ⟨hc, hnr⟩ := hh.child k hk hkr
    exact ⟨hc.mono (update_of_ne hkp _ _) rfl (fun q _ hq => ⟨hq, rfl⟩) rfl (fun _ h => h)
      fun _ h => h, hnr⟩
  | born i np hm =>
    obtain ⟨hi, hnp, hroot, hpar⟩ := h.making i np _ hm
    obtain ⟨hnew, hnex⟩ := hh.fresh np hnp
    refine ⟨?_, ?_, ?_, ?_, ?_, ?_, hh.exited_used, ?_, ?_, hh.once⟩
    · grind [update_apply, hh.fresh, h.distinct]
    · grind [update_apply, hh.alive]
    · grind [update_apply, hh.dead]
    · intro k hk hkr
      by_cases hkp : k = np
      · subst hkp
        refine ⟨⟨i, f.pid i, hpar, by grind [update_apply], by simp, .inl rfl⟩, ?_⟩
        grind [hh.reaped]
      · obtain ⟨hc, hnr⟩ := hh.child k (by grind [update_apply]) hkr
        exact ⟨hc.mono rfl rfl (by grind [update_apply]) rfl (subset_append_left _ _)
          fun _ h => h, hnr⟩
    · grind [update_apply, hh.kept]
    · grind [hh.used, h.given]
    · grind [hh.creator]
    · grind [update_apply, hh.reaped]
  | exit i hi hm hroot =>
    obtain ⟨r, hr, hra⟩ := h.rooted i (.inl hi)
    refine ⟨?_, ?_, ?_, ?_, ?_, hh.used, ?_, hh.creator, ?_, hh.once⟩
    · grind [update_apply, hh.fresh, h.distinct]
    · grind [update_apply, hh.alive, h.distinct]
    · grind [update_apply, hh.dead]
    · intro k hk hkr
      obtain ⟨hc, hnr⟩ := hh.child k (by grind [update_apply]) hkr
      refine ⟨?_, hnr⟩
      by_cases hki : f.parent k = some i
      · -- the root takes over
        obtain ⟨q, cr, hq, hqa, hmem, hcr⟩ := hc
        obtain rfl := Option.some.inj (hki.symm.trans hq)
        have hcr' : cr = f.pid i := by grind
        exact ⟨r, cr, by simp [hki, hr], by grind [update_apply], hmem,
          .inr ⟨hr, by simp [hcr']⟩⟩
      · exact hc.mono (if_neg hki) rfl (by grind [update_apply]) rfl (fun _ h => h)
          (subset_append_left _ _)
    · grind [update_apply, hh.kept]
    · grind [hh.exited_used, h.given]
    · grind [update_apply, hh.reaped]
  | reap i k pid hi hk hpar =>
    obtain ⟨r, hr, hra⟩ := h.rooted i (.inl hi)
    obtain ⟨hchild, hnr⟩ := hh.child k (.inr hk) (by grind)
    refine ⟨?_, ?_, ?_, ?_, ?_, hh.used, hh.exited_used, hh.creator, ?_, ?_⟩
    · grind [update_apply, hh.fresh]
    · grind [update_apply, hh.alive]
    · grind [update_apply, hh.dead]
    · intro l hl hlr
      have hlk : l ≠ k := by rintro rfl; grind [update_apply]
      have hlive : f.live l := by grind [update_apply]
      obtain ⟨hc, hnr⟩ := hh.child l hlive hlr
      have hpid : update f.pid k pid l = f.pid l := update_of_ne hlk _ _
      refine ⟨hc.mono (update_of_ne hlk _ _) hpid (by grind [update_apply]) rfl
        (fun _ h => h) fun _ h => h, ?_⟩
      have hne : f.pid l ≠ f.pid k := by grind [h.distinct]
      simpa [hpid, hne] using hnr
    · grind [update_apply, hh.kept]
    · intro c q hc
      rcases mem_append.mp hc with hc | hc
      · grind [update_apply, hh.reaped]
      · obtain ⟨rfl, rfl⟩ := Prod.mk.inj (mem_singleton.mp hc)
        obtain ⟨q, cr, hq, -, hmem, hcr⟩ := hchild
        obtain rfl := Option.some.inj (hpar.symm.trans hq)
        refine ⟨cr, hmem, hh.dead k hk, ?_⟩
        grind [update_apply]
    · rw [map_append, nodup_append_comm]
      exact nodup_cons.mpr ⟨hnr, hh.once⟩

omit [DecidableEq κ] in
theorem all_reaped (h : Shape f) (hh : History f) {i : κ} (hi : f.stage i = .alive)
    (hno : ∀ k, f.parent k ≠ some i) {c cr : π} (hmem : (c, cr) ∈ f.forked)
    (hcr : cr = f.pid i ∨ f.root = some i ∧ cr ∈ f.exited) : c ∈ f.reaped.map Prod.fst := by
  rcases hh.kept c cr hmem with hr | ⟨k, hk, hkr, rfl⟩
  · exact hr
  · obtain ⟨⟨q, cr', hq, hqa, hmem', hcr'⟩, -⟩ := hh.child k hk hkr
    obtain rfl := hh.creator _ _ _ hmem hmem'
    have hqi : q = i := by
      rcases hcr with rfl | ⟨hri, hex⟩
      · rcases hcr' with hp | ⟨-, hex⟩
        · exact h.distinct q i (by simp [hqa]) (by simp [hi]) hp
        · exact absurd hex (hh.alive i hi)
      · rcases hcr' with rfl | ⟨hrq, -⟩
        · exact absurd hex (hh.alive q hqa)
        · exact Option.some.inj (hrq.symm.trans hri)
    exact absurd (hqi ▸ hq) (hno k)

end Xv6.Ptable
