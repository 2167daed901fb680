import Xv6.Vm.User

/-!
# Copy-on-write

`copyuvm` shares every user page of the parent and takes `PTE_W` from both entries. `CoW_handler`
gives the writer a page of its own.
-/

open Xv6.Cmd Xv6.Pool Function

namespace Xv6.Vm

variable {ld : Linker} {dom : Nat → Prop} {s s' : Phys} {own sh : Nat → Nat} {d d' pgdir pgdir' : PgDir}

/-- The entry as `copyuvm` leaves it in both page tables. -/
def Pte.readOnly (e : Pte) : Pte := { e with writable := false }

@[simp] theorem Pte.readOnly_holds (e : Pte) (p : Nat) : e.readOnly.holds p = e.holds p := rfl

/-! ## `copyuvm` -/

theorem copyLoop_cases {sz n i : Nat} {ok : Bool}
    (h : copyLoop sz (n + 1) pgdir d i s = .ok ((pgdir', d', ok), s')) :
    (sz ≤ i ∧ pgdir' = pgdir ∧ d' = d ∧ ok = true ∧ s' = s) ∨
    (i < sz ∧ (pgdir.get i).present = true ∧ ∃ d1 w s1,
      mappages d i PGSIZE ((pgdir.get i).ppn * PGSIZE) ⟨false, (pgdir.get i).user⟩ s =
        .ok ((d1, w), s1) ∧
      ((w = true ∧
        copyLoop sz n (pgdir.set i (pgdir.get i).readOnly) d1 (u32 (i + PGSIZE))
          (s1.setRefc (pgdir.get i).ppn (s1.refc_cnt (pgdir.get i).ppn + 1)) =
            .ok ((pgdir', d', ok), s')) ∨
       (w = false ∧ pgdir' = pgdir.set i (pgdir.get i).readOnly ∧ d' = d1 ∧ ok = false ∧ s' = s1))) := by
  unfold copyLoop at h
  split at h
  · next hlt =>
    split at h
    · exact (throw_ok h).elim
    · split at h
      · exact (throw_ok h).elim
      · next hp =>
        have hp : (pgdir.get i).present = true := by simpa using hp
        have hset : (pgdir.set i { pgdir.get i with writable := false }).get i =
            (pgdir.get i).readOnly := PgDir.get_set_self (PgDir.hasTab_of_present hp)
        dsimp only at h
        rw [hset] at h
        obtain ⟨⟨d1, w⟩, s1, hm, h⟩ := bind_ok h
        refine .inr ⟨hlt, hp, d1, w, s1, hm, ?_⟩
        cases w with
        | true =>
          obtain ⟨_, s2, hr, h⟩ := bind_ok h
          obtain ⟨-, rfl⟩ := Prod.mk.inj (Except.ok.inj hr)
          exact .inl ⟨rfl, h⟩
        | false =>
          obtain ⟨h1, rfl⟩ := Prod.mk.inj (pure_ok h)
          obtain ⟨rfl, h2⟩ := Prod.mk.inj h1
          obtain ⟨rfl, rfl⟩ := Prod.mk.inj h2
          exact .inr ⟨rfl, rfl, rfl, rfl, rfl⟩
  · next hlt =>
    obtain ⟨h1, rfl⟩ := Prod.mk.inj (pure_ok h)
    obtain ⟨rfl, h2⟩ := Prod.mk.inj h1
    obtain ⟨rfl, rfl⟩ := Prod.mk.inj h2
    exact .inl ⟨by omega, rfl, rfl, rfl, rfl⟩

theorem copyLoop_zero {sz i : Nat} {ok : Bool}
    (h : copyLoop sz 0 pgdir d i s = .ok ((pgdir', d', ok), s')) :
    sz ≤ i ∧ pgdir' = pgdir ∧ d' = d ∧ ok = true ∧ s' = s := by
  unfold copyLoop at h
  split at h
  · exact (throw_ok h).elim
  · obtain ⟨h1, rfl⟩ := Prod.mk.inj (pure_ok h)
    obtain ⟨rfl, h2⟩ := Prod.mk.inj h1
    obtain ⟨rfl, rfl⟩ := Prod.mk.inj h2
    exact ⟨by omega, rfl, rfl, rfl, rfl⟩

/-- The parent's table after some of its entries have lost `PTE_W`. -/
structure Demoted (pgdir pgdir' : PgDir) : Prop where
  ext : pgdir.Ext pgdir'
  kern : ∀ p, pgdir'.kernRefs p = pgdir.kernRefs p
  user : ∀ p, pgdir'.userRefs p = pgdir.userRefs p
  entry : ∀ b, pgdir'.get b = pgdir.get b ∨ pgdir'.get b = (pgdir.get b).readOnly
  above : ∀ b < 0x100000000, KERNBASE ≤ b → pgdir'.get b = pgdir.get b

theorem Demoted.refl (pgdir : PgDir) : Demoted pgdir pgdir :=
  ⟨.refl _, fun _ => rfl, fun _ => rfl, fun _ => .inl rfl, fun _ _ _ => rfl⟩

theorem Demoted.trans {d1 d2 d3 : PgDir} (h : Demoted d1 d2) (h' : Demoted d2 d3) : Demoted d1 d3 where
  ext := h.ext.trans h'.ext
  kern p := (h'.kern p).trans (h.kern p)
  user p := (h'.user p).trans (h.user p)
  entry b := by
    rcases h'.entry b with h2 | h2 <;> rcases h.entry b with h1 | h1 <;> rw [h2, h1]
    · exact .inl rfl
    · exact .inr rfl
    · exact .inr rfl
    · exact .inr rfl
  above b hb hk := (h'.above b hb hk).trans (h.above b hb hk)

theorem Demoted.present (h : Demoted pgdir pgdir') (va : Nat) :
    (pgdir'.get va).present = (pgdir.get va).present := by
  rcases h.entry va with he | he <;> rw [he]
  rfl

theorem Demoted.ppn (h : Demoted pgdir pgdir') (va : Nat) : (pgdir'.get va).ppn = (pgdir.get va).ppn := by
  rcases h.entry va with he | he <;> rw [he]
  rfl

theorem Demoted.userBit (h : Demoted pgdir pgdir') (va : Nat) :
    (pgdir'.get va).user = (pgdir.get va).user := by
  rcases h.entry va with he | he <;> rw [he]
  rfl

theorem demoted_set {i : Nat} (hp : (pgdir.get i).present = true) (hi : i < KERNBASE) :
    Demoted pgdir (pgdir.set i (pgdir.get i).readOnly) where
  ext := PgDir.ext_set _ _ _
  kern := PgDir.kernRefs_set _ _ _
  user p := by
    have := PgDir.userRefs_set (e := (pgdir.get i).readOnly) (PgDir.hasTab_of_present hp) hi p
    rw [Pte.readOnly_holds] at this
    omega
  entry b := by
    by_cases h : pdx b ≠ pdx i ∨ ptx b ≠ ptx i
    · exact .inl (PgDir.get_set_ne h)
    · simp only [ne_eq, not_or, Classical.not_not] at h
      rw [PgDir.get_congr _ h.1 h.2, PgDir.get_set_self (PgDir.hasTab_of_present hp),
        PgDir.get_congr pgdir h.1 h.2]
      exact .inr rfl
  above b hb hk := by
    rw [PgDir.get_set (PgDir.hasTab_of_present hp) (by simp only [KERNBASE] at *; omega) hb, if_neg]
    simp only [PGSIZE, KERNBASE] at *
    omega

theorem acct_share {i : Nat} {d1 : PgDir} {s1 : Phys} (hal : i % PGSIZE = 0) (hi : i < KERNBASE)
    (hp : (pgdir.get i).present = true)
    (ha : Acct dom s (d.kernRefs + own) (d.userRefs + (pgdir.userRefs + sh)))
    (hm : mappages d i PGSIZE ((pgdir.get i).ppn * PGSIZE) ⟨false, (pgdir.get i).user⟩ s =
      .ok ((d1, true), s1)) :
    Acct dom (s1.setRefc (pgdir.get i).ppn (s1.refc_cnt (pgdir.get i).ppn + 1)) (d1.kernRefs + own)
      (d1.userRefs + (pgdir.userRefs + sh)) := by
  obtain ⟨h1, -⟩ := acct_map hi ha hm
  have hpos : 0 < (d.userRefs + (pgdir.userRefs + sh)) (pgdir.get i).ppn := by
    have := PgDir.userRefs_pos hp hi
    simp only [Pi.add_apply]
    omega
  refine Holds.congr (h1.retain hpos) (fun _ => rfl) fun p => ?_
  have : d1.userRefs p = d.userRefs p + one (pgdir.get i).ppn p := userRefs_map hal hi hm p
  simp only [Pi.add_apply]
  omega

theorem acct_copyLoop {sz n i : Nat} {ok : Bool} (hsz : sz ≤ KERNBASE) (hal : i % PGSIZE = 0)
    (ha : Acct dom s (d.kernRefs + own) (d.userRefs + (pgdir.userRefs + sh)))
    (h : copyLoop sz n pgdir d i s = .ok ((pgdir', d', ok), s')) :
    Acct dom s' (d'.kernRefs + own) (d'.userRefs + (pgdir.userRefs + sh)) ∧
    Kept (own + (pgdir.userRefs + sh)) s s' ∧ Demoted pgdir pgdir' := by
  induction n generalizing pgdir d i s with
  | zero =>
    obtain ⟨-, rfl, rfl, -, rfl⟩ := copyLoop_zero h
    exact ⟨ha, .refl _ _, .refl _⟩
  | succ n ih =>
    rcases copyLoop_cases h with ⟨-, rfl, rfl, -, rfl⟩ |
      ⟨hlt, hp, d1, w, s1, hm, ⟨rfl, h⟩ | ⟨rfl, rfl, rfl, -, rfl⟩⟩
    · exact ⟨ha, .refl _ _, .refl _⟩
    · have hi : i < KERNBASE := by omega
      have hdem := demoted_set hp hi
      have hnext : u32 (i + PGSIZE) = i + PGSIZE :=
        u32_of_lt (by simp only [PGSIZE, KERNBASE] at *; omega)
      rw [hnext] at h
      have h1 := acct_share hal hi hp ha hm
      obtain ⟨h2, hk2, hd2⟩ := ih (by simp only [PGSIZE] at *; omega)
        (h1.congr (fun _ => rfl) fun p => by simp only [Pi.add_apply, hdem.user]) h
      refine ⟨h2.congr (fun _ => rfl) fun p => by simp only [Pi.add_apply, hdem.user], ?_,
        hdem.trans hd2⟩
      obtain ⟨-, hk1⟩ := acct_map hi ha hm
      intro p hp
      rw [hk2 p (by simpa only [Pi.add_apply, hdem.user] using hp)]
      exact hk1 p (by simp only [Pi.add_apply] at *; omega)
    · have hi : i < KERNBASE := by omega
      obtain ⟨h1, hk1⟩ := acct_map hi ha hm
      have hu : ∀ p, d'.userRefs p = d.userRefs p := userRefs_map hal hi hm
      refine ⟨h1.congr (fun _ => rfl) fun p => by simp only [Pi.add_apply, hu], ?_, demoted_set hp hi⟩
      exact hk1.mono fun p hp => by simp only [Pi.add_apply] at *; omega

/-- The two tables after a finished `copyuvm`: every page below `sz` is mapped read-only in both. -/
structure Copied (i sz : Nat) (pgdir d pgdir' d' : PgDir) : Prop where
  child : ∀ b, i ≤ b → b / PGSIZE * PGSIZE < sz →
    (pgdir.get b).present = true ∧ d'.get b = (pgdir.get b).readOnly
  parent : ∀ b, i ≤ b → b / PGSIZE * PGSIZE < sz → pgdir'.get b = (pgdir.get b).readOnly
  childOut : ∀ b < 0x100000000, b < i ∨ sz ≤ b / PGSIZE * PGSIZE → d'.get b = d.get b
  parentOut : ∀ b < 0x100000000, b < i ∨ sz ≤ b / PGSIZE * PGSIZE → pgdir'.get b = pgdir.get b

theorem copyLoop_copied {sz n i : Nat} (hsz : sz ≤ KERNBASE) (hal : i % PGSIZE = 0)
    (h : copyLoop sz n pgdir d i s = .ok ((pgdir', d', true), s')) :
    Copied i sz pgdir d pgdir' d' := by
  have hend : ∀ {i : Nat} {pgdir d : PgDir}, i % PGSIZE = 0 → sz ≤ i →
      Copied i sz pgdir d pgdir d := by
    intro i pgdir d hal hle
    refine ⟨?_, ?_, fun _ _ _ => rfl, fun _ _ _ => rfl⟩ <;>
    · intro b hb hlt
      simp only [PGSIZE] at *
      omega
  induction n generalizing pgdir d i s with
  | zero =>
    obtain ⟨hle, rfl, rfl, -, rfl⟩ := copyLoop_zero h
    exact hend hal hle
  | succ n ih =>
    rcases copyLoop_cases h with ⟨hle, rfl, rfl, -, rfl⟩ |
      ⟨hlt, hp, d1, w, s1, hm, ⟨rfl, h⟩ | ⟨-, -, -, hc, -⟩⟩
    · exact hend hal hle
    · have hi : i < KERNBASE := by omega
      have hi32 : i < 0x100000000 := by simp only [KERNBASE] at *; omega
      have htab := PgDir.hasTab_of_present hp
      have hnext : u32 (i + PGSIZE) = i + PGSIZE :=
        u32_of_lt (by simp only [PGSIZE, KERNBASE] at *; omega)
      rw [hnext] at h
      have hc := ih (by simp only [PGSIZE] at *; omega) h
      obtain ⟨-, -, hmap⟩ := map_user_shape hal hi hm
      obtain ⟨-, -, hget⟩ := hmap rfl
      -- What the first round has written, by address.
      have hpar : ∀ b < 0x100000000, (pgdir.set i (pgdir.get i).readOnly).get b =
          if b / PGSIZE = i / PGSIZE then (pgdir.get i).readOnly else pgdir.get b :=
        fun b hb => PgDir.get_set htab hi32 hb
      have hsame : ∀ b < 0x100000000, b / PGSIZE = i / PGSIZE → pgdir.get b = pgdir.get i := by
        intro b hb hpage
        obtain ⟨e1, e2⟩ := (same_entry hb hi32).mpr hpage
        exact PgDir.get_congr _ e1 e2
      refine ⟨?_, ?_, ?_, ?_⟩
      · intro b hib hbs
        have hb : b < 0x100000000 := by simp only [PGSIZE, KERNBASE] at *; omega
        by_cases hfirst : b < i + PGSIZE
        · have hpage : b / PGSIZE = i / PGSIZE := by simp only [PGSIZE] at *; omega
          rw [hc.childOut b hb (.inl hfirst), hget b hb, if_pos hpage, hsame b hb hpage]
          refine ⟨hp, ?_⟩
          simp [Perm.pte, Pte.readOnly, hp]
        · have hne : b / PGSIZE ≠ i / PGSIZE := by simp only [PGSIZE] at *; omega
          have := hc.child b (by omega) hbs
          rwa [hpar b hb, if_neg hne] at this
      · intro b hib hbs
        have hb : b < 0x100000000 := by simp only [PGSIZE, KERNBASE] at *; omega
        by_cases hfirst : b < i + PGSIZE
        · have hpage : b / PGSIZE = i / PGSIZE := by simp only [PGSIZE] at *; omega
          rw [hc.parentOut b hb (.inl hfirst), hpar b hb, if_pos hpage, hsame b hb hpage]
        · have hne : b / PGSIZE ≠ i / PGSIZE := by simp only [PGSIZE] at *; omega
          have := hc.parent b (by omega) hbs
          rwa [hpar b hb, if_neg hne] at this
      · intro b hb hout
        rw [hc.childOut b hb (by omega), hget b hb, if_neg]
        simp only [PGSIZE] at *
        omega
      · intro b hb hout
        rw [hc.parentOut b hb (by omega), hpar b hb, if_neg]
        simp only [PGSIZE] at *
        omega
    · cases hc

theorem copyuvm_cases {sz : Nat} {r : Option PgDir}
    (h : copyuvm ld pgdir sz s = .ok ((pgdir', r), s')) :
    (setupkvm ld s = .ok (none, s') ∧ pgdir' = pgdir ∧ r = none) ∨
    ∃ d s1 d' ok s2, setupkvm ld s = .ok (some d, s1) ∧
      copyLoop sz (sz / PGSIZE + 1) pgdir d 0 s1 = .ok ((pgdir', d', ok), s2) ∧
      ((ok = true ∧ r = some d' ∧ s' = s2) ∨
       (ok = false ∧ r = none ∧ freevm ld d' s2 = .ok ((), s'))) := by
  obtain ⟨q, s1, hk, h⟩ := bind_ok h
  cases q with
  | none =>
    obtain ⟨h1, rfl⟩ := Prod.mk.inj (pure_ok h)
    obtain ⟨rfl, rfl⟩ := Prod.mk.inj h1
    exact .inl ⟨hk, rfl, rfl⟩
  | some d =>
    obtain ⟨⟨pg, d', ok⟩, s2, hl, h⟩ := bind_ok h
    cases ok with
    | true =>
      obtain ⟨h1, rfl⟩ := Prod.mk.inj (pure_ok h)
      obtain ⟨rfl, rfl⟩ := Prod.mk.inj h1
      exact .inr ⟨d, s1, d', true, _, hk, hl, .inl ⟨rfl, rfl, rfl⟩⟩
    | false =>
      obtain ⟨_, s3, hf, h⟩ := bind_ok h
      obtain ⟨h1, rfl⟩ := Prod.mk.inj (pure_ok h)
      obtain ⟨rfl, rfl⟩ := Prod.mk.inj h1
      exact .inr ⟨d, s1, d', false, s2, hk, hl, .inr ⟨rfl, rfl, hf⟩⟩

theorem acct_copyuvm_none {sz : Nat} (hsz : sz ≤ KERNBASE)
    (ha : Acct dom s own (pgdir.userRefs + sh)) (h : copyuvm ld pgdir sz s = .ok ((pgdir', none), s')) :
    Acct dom s' own (pgdir.userRefs + sh) ∧ Kept (own + (pgdir.userRefs + sh)) s s' ∧
    Demoted pgdir pgdir' := by
  rcases copyuvm_cases h with ⟨hk, rfl, -⟩ | ⟨d, s1, d', ok, s2, hk, hl, ⟨-, hc, -⟩ | ⟨-, -, hf⟩⟩
  · obtain ⟨h1, h2⟩ := acct_setupkvm_none ha hk
    exact ⟨h1, h2, .refl _⟩
  · cases hc
  · obtain ⟨h1, hk1⟩ := acct_setupkvm ha hk
    obtain ⟨h2, hk2, hd⟩ := acct_copyLoop hsz (by decide) h1 hl
    obtain ⟨h3, hk3⟩ := acct_freevm h2 hf
    exact ⟨h3, (hk1.trans hk2).trans hk3, hd⟩

theorem acct_copyuvm {sz : Nat} (hsz : sz ≤ KERNBASE)
    (ha : Acct dom s own (pgdir.userRefs + sh)) (h : copyuvm ld pgdir sz s = .ok ((pgdir', some d'), s')) :
    Acct dom s' (d'.kernRefs + own) (d'.userRefs + (pgdir.userRefs + sh)) ∧
    Kept (own + (pgdir.userRefs + sh)) s s' ∧ Demoted pgdir pgdir' := by
  rcases copyuvm_cases h with ⟨-, -, hc⟩ | ⟨d, s1, d1, ok, s2, hk, hl, ⟨-, hr, rfl⟩ | ⟨-, hc, -⟩⟩
  · cases hc
  · obtain rfl := Option.some.inj hr
    obtain ⟨h1, hk1⟩ := acct_setupkvm ha hk
    obtain ⟨h2, hk2, hd⟩ := acct_copyLoop hsz (by decide) h1 hl
    exact ⟨h2, hk1.trans hk2, hd⟩
  · cases hc

theorem copyuvm_shape {sz : Nat} (hsz : sz ≤ KERNBASE)
    (h : copyuvm ld pgdir sz s = .ok ((pgdir', some d'), s')) :
    KernelMap ld d' ∧
    (∀ b < KERNBASE, if b / PGSIZE * PGSIZE < sz then
      (pgdir.get b).present = true ∧ d'.get b = (pgdir.get b).readOnly ∧
        pgdir'.get b = (pgdir.get b).readOnly
      else d'.get b = .zero ∧ pgdir'.get b = pgdir.get b) := by
  rcases copyuvm_cases h with ⟨-, -, hc⟩ | ⟨d, s1, d1, ok, s2, hk, hl, ⟨rfl, hr, rfl⟩ | ⟨-, hc, -⟩⟩
  · cases hc
  · obtain rfl := Option.some.inj hr
    have hcop := copyLoop_copied hsz (by decide) hl
    have hkvm := setupkvm_shape hk
    constructor
    · intro va hva hge
      rw [hcop.childOut va hva (.inr (by simp only [PGSIZE, KERNBASE] at *; omega)), hkvm va hva]
    · intro b hb
      have hb32 : b < 0x100000000 := by simp only [KERNBASE] at *; omega
      split
      · next hlt =>
        obtain ⟨h1, h2⟩ := hcop.child b (Nat.zero_le _) hlt
        exact ⟨h1, h2, hcop.parent b (Nat.zero_le _) hlt⟩
      · next hlt =>
        rw [hcop.childOut b hb32 (.inr (by omega)), hcop.parentOut b hb32 (.inr (by omega)),
          hkvm b hb32, kernelPte_user hb]
        exact ⟨rfl, rfl⟩
  · cases hc

/-! ## `CoW_handler` -/

/-- The entry that `CoW_handler` writes for the new page `q`. -/
def cowPte (q : Nat) : Pte := { ppn := q, present := true, writable := true, user := true }

def Pte.writeOk (e : Pte) : Pte := { e with writable := true }

theorem CoW_handler_cases {va : Nat} {r : Option PgDir} (h : CoW_handler d va s = .ok (r, s')) :
    ((d.get va).present = false ∧ r = none ∧ s' = s) ∨
    ((d.get va).present = true ∧ s.refc_cnt (d.get va).ppn ≤ 1 ∧
      r = some (d.set va (d.get va).writeOk) ∧ s' = s) ∨
    ((d.get va).present = true ∧ 1 < s.refc_cnt (d.get va).ppn ∧ ∃ q s1, kalloc s = .ok (some q, s1) ∧
      r = some (d.set va (cowPte q)) ∧
      s' = (s1.setMem q (s1.mem (d.get va).ppn)).setRefc (d.get va).ppn
        (s1.refc_cnt (d.get va).ppn - 1)) := by
  unfold CoW_handler at h
  split at h
  · next hno =>
    obtain ⟨rfl, rfl⟩ := Prod.mk.inj (pure_ok h)
    refine .inl ⟨?_, rfl, rfl⟩
    rcases hno with hno | hno
    · have : ¬ d.HasTab va := by simpa [PgDir.HasTab] using hno
      rw [PgDir.get_of_no_tab this]; rfl
    · exact hno
  · next hno =>
    have hp : (d.get va).present = true := by
      simp only [not_or, Bool.not_eq_false] at hno
      exact hno.2
    obtain ⟨c, s1, hg, h⟩ := bind_ok h
    obtain ⟨rfl, rfl⟩ := Prod.mk.inj (Except.ok.inj hg)
    split at h
    · next hc =>
      obtain ⟨q, s2, hk, h⟩ := bind_ok h
      cases q with
      | none => exact (throw_ok h).elim
      | some q =>
        obtain ⟨_, s3, hm, h⟩ := bind_ok h
        obtain ⟨-, rfl⟩ := Prod.mk.inj (Except.ok.inj hm)
        obtain ⟨_, s4, hd, h⟩ := bind_ok h
        obtain ⟨-, rfl⟩ := Prod.mk.inj (Except.ok.inj hd)
        obtain ⟨rfl, rfl⟩ := Prod.mk.inj (pure_ok h)
        exact .inr (.inr ⟨hp, hc, q, s2, hk, rfl, rfl⟩)
    · next hc =>
      obtain ⟨rfl, rfl⟩ := Prod.mk.inj (pure_ok h)
      exact .inr (.inl ⟨hp, by omega, rfl, rfl⟩)

theorem has_page {va : Nat} (hp : (d.get va).present = true) :
    ¬ ((d.tab (pdx va)).isNone = true ∨ (d.get va).present = false) := by
  rintro (hn | ha)
  · have := PgDir.hasTab_of_present hp
    rw [PgDir.HasTab, Option.isNone_iff_eq_none.mp hn] at this
    cases this
  · rw [hp] at ha
    cases ha

theorem CoW_handler_alone {va : Nat} (hp : (d.get va).present = true)
    (hc : s.refc_cnt (d.get va).ppn ≤ 1) :
    CoW_handler d va s = .ok (some (d.set va (d.get va).writeOk), s) := by
  have hget : get_refc (d.get va).ppn s = .ok (s.refc_cnt (d.get va).ppn, s) := rfl
  unfold CoW_handler
  rw [if_neg (has_page hp)]
  dsimp only
  rw [bind_of_ok hget, if_neg (by omega)]
  rfl

theorem CoW_handler_copy {va q : Nat} {s1 : Phys} (hp : (d.get va).present = true)
    (hc : 1 < s.refc_cnt (d.get va).ppn) (hk : kalloc s = .ok (some q, s1)) :
    CoW_handler d va s = .ok (some (d.set va (cowPte q)),
      (s1.setMem q (s1.mem (d.get va).ppn)).setRefc (d.get va).ppn
        (s1.refc_cnt (d.get va).ppn - 1)) := by
  have hget : get_refc (d.get va).ppn s = .ok (s.refc_cnt (d.get va).ppn, s) := rfl
  unfold CoW_handler
  rw [if_neg (has_page hp)]
  dsimp only
  rw [bind_of_ok hget, if_pos hc, bind_of_ok hk]
  rfl

theorem CoW_handler_none {va : Nat} (h : CoW_handler d va s = .ok (none, s')) :
    (d.get va).present = false ∧ s' = s := by
  rcases CoW_handler_cases h with ⟨hp, -, hs⟩ | ⟨-, -, hn, -⟩ | ⟨-, -, _, _, -, hn, -⟩
  · exact ⟨hp, hs⟩
  · cases hn
  · cases hn

theorem acct_CoW_handler {va : Nat} (hva : va < KERNBASE)
    (ha : Acct dom s (d.kernRefs + own) (d.userRefs + sh))
    (h : CoW_handler d va s = .ok (some d', s')) :
    Acct dom s' (d'.kernRefs + own) (d'.userRefs + sh) ∧ Kept (own + d.userRefs + sh) s s' := by
  rcases CoW_handler_cases h with ⟨-, hc, -⟩ | ⟨hp, -, hr, rfl⟩ | ⟨hp, hrc, q, s1, hk, hr, rfl⟩
  · cases hc
  · obtain rfl := Option.some.inj hr
    refine ⟨ha.congr (fun p => by simp [PgDir.kernRefs_set]) fun p => ?_, .refl _ _⟩
    have := PgDir.userRefs_set (e := (d.get va).writeOk) (PgDir.hasTab_of_present hp) hva p
    have hsame : (d.get va).writeOk.holds p = (d.get va).holds p := rfl
    simp only [Pi.add_apply]
    omega
  · obtain rfl := Option.some.inj hr
    have hpos := PgDir.userRefs_pos hp hva
    obtain ⟨ho, hs, -, h1⟩ := acct_kalloc ha hk
    simp only [Pi.add_apply] at ho hs
    have hu := PgDir.userRefs_set (e := cowPte q) (PgDir.hasTab_of_present hp) hva
    have hother : ∀ p, (d.set va (cowPte q)).userRefs p + one (d.get va).ppn p =
        d.userRefs p + one q p := by
      intro p
      have := hu p
      rwa [Pte.holds_of_present hp, Pte.holds_of_present rfl] at this
    have hne : q ≠ (d.get va).ppn := by
      rintro rfl; omega
    -- The new page goes into the entry, and then the old one loses the reference of that entry.
    have h2 : Acct dom s1 (d.kernRefs + own) ((d.set va (cowPte q)).userRefs + sh + one (d.get va).ppn) :=
      Holds.congr h1.publish (fun _ => rfl) fun p => by
        have := hother p
        simp only [Pi.add_apply]
        omega
    have hrest : 0 < ((d.set va (cowPte q)).userRefs + sh) (d.get va).ppn := by
      have hcount := ha.count _ (ha.inDom (d.get va).ppn (by simp only [Pi.add_apply]; omega))
      have hex := ha.excl (d.get va).ppn
      have := hother (d.get va).ppn
      rw [one_self, one_of_ne hne.symm] at this
      simp only [Pi.add_apply] at *
      omega
    obtain ⟨-, h3⟩ := h2.release hrest
    refine ⟨Holds.congr h3 (fun p => by simp [PgDir.kernRefs_set]) fun _ => rfl, ?_⟩
    intro p hpp
    have hpq : p ≠ q := by
      rintro rfl
      simp only [Pi.add_apply] at hpp
      omega
    change update s1.mem q _ p = _
    rw [update_of_ne hpq, kalloc_mem hk]

/-- What `CoW_handler` leaves of the entry for `va`, when `sh` are the entries of the other page
tables: the page can be written, nothing else refers to it, and it holds what the page held. -/
structure Unshared (va : Nat) (sh : Nat → Nat) (d d' : PgDir) (s s' : Phys) : Prop where
  ext : d.Ext d'
  out : ∀ b < 0x100000000, b / PGSIZE ≠ va / PGSIZE → d'.get b = d.get b
  present : (d'.get va).present = true
  writable : (d'.get va).writable = true
  user : (d.get va).user = true → (d'.get va).user = true
  alone : sh (d'.get va).ppn + d'.userRefs (d'.get va).ppn = 1
  le : ∀ p, p ≠ (d'.get va).ppn → d'.userRefs p ≤ d.userRefs p
  mem : s'.mem (d'.get va).ppn = s.mem (d.get va).ppn

theorem CoW_handler_unshared {va : Nat} (hva : va < KERNBASE)
    (ha : Acct dom s (d.kernRefs + own) (d.userRefs + sh))
    (h : CoW_handler d va s = .ok (some d', s')) : Unshared va sh d d' s s' := by
  have hva' : va < 0x100000000 := by simp only [KERNBASE] at hva; omega
  rcases CoW_handler_cases h with ⟨-, hc, -⟩ | ⟨hp, hrc, hr, rfl⟩ | ⟨hp, hrc, q, s1, hk, hr, rfl⟩
  · cases hc
  · obtain rfl := Option.some.inj hr
    have htab := PgDir.hasTab_of_present hp
    have hpos := PgDir.userRefs_pos hp hva
    have hsame : ∀ p, (d.set va (d.get va).writeOk).userRefs p = d.userRefs p := by
      intro p
      have := PgDir.userRefs_set (e := (d.get va).writeOk) htab hva p
      have hh : (d.get va).writeOk.holds p = (d.get va).holds p := rfl
      omega
    have hcount := ha.count _ (ha.inDom (d.get va).ppn (by simp only [Pi.add_apply]; omega))
    simp only [Pi.add_apply] at hcount
    have hget := PgDir.get_set_self (e := (d.get va).writeOk) htab
    refine ⟨PgDir.ext_set _ _ _, fun b hb hne => ?_, ?_, ?_, ?_, ?_, fun p _ => Nat.le_of_eq (hsame p), ?_⟩
    · rw [PgDir.get_set htab hva' hb, if_neg hne]
    all_goals rw [hget]
    · exact hp
    · rfl
    · exact id
    · change sh (d.get va).ppn + _ = 1
      rw [hsame]
      change _ + d.userRefs (d.get va).ppn = 1
      omega
    · rfl
  · obtain rfl := Option.some.inj hr
    have htab := PgDir.hasTab_of_present hp
    have hpos := PgDir.userRefs_pos hp hva
    obtain ⟨-, hs, -, -⟩ := acct_kalloc ha hk
    simp only [Pi.add_apply] at hs
    have hother : ∀ p, (d.set va (cowPte q)).userRefs p + one (d.get va).ppn p =
        d.userRefs p + one q p := by
      intro p
      have := PgDir.userRefs_set (e := cowPte q) htab hva p
      rwa [Pte.holds_of_present hp, Pte.holds_of_present rfl] at this
    have hne : q ≠ (d.get va).ppn := by
      rintro rfl; omega
    have hget := PgDir.get_set_self (e := cowPte q) htab
    refine ⟨PgDir.ext_set _ _ _, fun b hb hne => ?_, ?_, ?_, ?_, ?_, fun p hpq => ?_, ?_⟩
    · rw [PgDir.get_set htab hva' hb, if_neg hne]
    any_goals rw [hget]
    · rfl
    · rfl
    · exact fun _ => rfl
    · have := hother q
      rw [one_self, one_of_ne hne] at this
      change sh q + (d.set va (cowPte q)).userRefs q = 1
      omega
    · have hpq' : p ≠ q := by rwa [hget] at hpq
      have := hother p
      rw [one_of_ne hpq'] at this
      omega
    · change update s1.mem q (s1.mem (d.get va).ppn) q = _
      rw [update_self]
      exact congrFun (kalloc_mem hk) _

end Xv6.Vm
