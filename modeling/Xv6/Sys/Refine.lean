import Xv6.Sys.Eager
import Xv6.Sys.Total

/-!
# Copy-on-write refines copying

What a process sees of its memory does not depend on which pages it shares.
-/

open Xv6.Cmd Xv6.Pool Xv6.Run Xv6.Vm Function

namespace Xv6.Sys

variable {ld : Linker} {s s' : Phys} {d d' : PgDir} {m m' : Machine} {i : Fin NPROC} {p : Proc}

/-! ## What a process sees -/

/-- The page number `v` as a process sees it: its `PTE_U` and its contents. -/
def pageView (s : Phys) (d : PgDir) (v : Nat) : Option (Bool × Page) :=
  if v * PGSIZE < KERNBASE ∧ (d.get (v * PGSIZE)).present = true then
    some ((d.get (v * PGSIZE)).user, s.mem (d.get (v * PGSIZE)).ppn)
  else none

def viewProc (s : Phys) (p : Proc) : EProc :=
  { sz := p.sz, page := pageView s p.pgdir, zombie := p.zombie }

/-- The machine of the reference kernel that `m` stands for. -/
def abs (m : Machine) : Eager := fun i => (m.proc i).map (viewProc m.phys)

theorem pageView_congr
    (h : ∀ va < KERNBASE, ((d'.get va).present = (d.get va).present) ∧
      ((d.get va).present = true → (d'.get va).user = (d.get va).user ∧
        s'.mem (d'.get va).ppn = s.mem (d.get va).ppn)) : pageView s' d' = pageView s d := by
  funext v
  unfold pageView
  by_cases hv : v * PGSIZE < KERNBASE
  · obtain ⟨hp, hrest⟩ := h (v * PGSIZE) hv
    by_cases hpr : (d.get (v * PGSIZE)).present = true
    · obtain ⟨hu, hm⟩ := hrest hpr
      rw [if_pos ⟨hv, hp.trans hpr⟩, if_pos ⟨hv, hpr⟩, hu, hm]
    · rw [if_neg fun hc => hpr (hp ▸ hc.2), if_neg fun hc => hpr hc.2]
  · rw [if_neg fun hc => hv hc.1, if_neg fun hc => hv hc.1]

theorem pageView_kept {f : Nat → Nat} (hk : Kept f s s')
    (hf : ∀ va < KERNBASE, (d.get va).present = true → 0 < f (d.get va).ppn) :
    pageView s' d = pageView s d :=
  pageView_congr fun va hva => ⟨rfl, fun hp => ⟨rfl, hk _ (hf va hva hp)⟩⟩

theorem abs_setProc {x : Option Proc} {ph : Phys} (hk : Kept (m.sharedRest i) m.phys ph) :
    abs { m.setProc i x with phys := ph } = update (abs m) i (x.map (viewProc ph)) := by
  funext j
  by_cases hji : j = i
  · subst hji
    simp [abs, Machine.setProc]
  · rw [update_of_ne hji]
    simp only [abs, Machine.setProc, update_of_ne hji]
    cases hp : m.proc j with
    | none => rfl
    | some p =>
      have hview : pageView ph p.pgdir = pageView m.phys p.pgdir := pageView_kept hk fun va hva hpr => by
        have := present_userOf hp hva hpr
        have := userOf_le_rest hji (p.pgdir.get va).ppn (m := m)
        omega
      simp only [Option.map_some, viewProc, hview]

theorem abs_setProc_same {x : Proc} {ph : Phys} (hp : m.proc i = some p)
    (hk : Kept (m.sharedRest i) m.phys ph) (hx : viewProc ph x = viewProc m.phys p) :
    abs { m.setProc i (some x) with phys := ph } = abs m := by
  rw [abs_setProc hk, Option.map_some, hx]
  refine update_eq_self_iff.mpr ?_
  simp [abs, hp]

/-! ## Loads and stores -/

theorem view_maps {va : Nat} (hm : p.Maps va) (hlt : p.sz < KERNBASE) :
    (viewProc s p).page (va / PGSIZE) = some (true, s.mem (p.pgdir.get va).ppn) := by
  obtain ⟨hsz, hp, hu⟩ := hm
  have hva : va / PGSIZE * PGSIZE < KERNBASE := by
    simp only [KERNBASE, PGSIZE] at *
    omega
  change pageView s p.pgdir (va / PGSIZE) = _
  unfold pageView
  rw [PgDir.get_page, if_pos ⟨hva, hp⟩, hu]

theorem view_Maps {va : Nat} (hm : p.Maps va) (hlt : p.sz < KERNBASE) : (viewProc s p).Maps va :=
  ⟨hm.1, by rw [view_maps hm hlt]; rfl⟩

theorem maps_of_view {va : Nat} (hm : (viewProc s p).Maps va) : p.Maps va := by
  obtain ⟨hsz, hpage⟩ := hm
  change (pageView s p.pgdir (va / PGSIZE)).map Prod.fst = some true at hpage
  unfold pageView at hpage
  rw [PgDir.get_page] at hpage
  split at hpage
  · next hc => exact ⟨hsz, hc.2, Option.some.inj hpage⟩
  · cases hpage

theorem view_byte {va : Nat} (hm : p.Maps va) (hlt : p.sz < KERNBASE) :
    (viewProc s p).byte va = Phys.byte s p.pgdir va := by
  unfold EProc.byte
  rw [view_maps hm hlt]
  rfl

/-- A page fault on a user page changes nothing that any process sees. -/
theorem abs_cow {va : Nat} {ph : Phys} (h : Inv ld m) (hp : m.proc i = some p) (hva : va < KERNBASE)
    (hu : (p.pgdir.get va).user = true) (hpr : (p.pgdir.get va).present = true)
    (hc : CoW_handler p.pgdir va m.phys = .ok (some d, ph)) :
    abs { m.setProc i (some { p with pgdir := d }) with phys := ph } = abs m := by
  have hframe := h.frame hp
  have hkept := (acct_CoW_handler hva hframe hc).2
  have hun := CoW_handler_unshared hva hframe hc
  have hpage : ∀ b, b / PGSIZE = va / PGSIZE → d.get b = d.get va ∧ p.pgdir.get b = p.pgdir.get va := by
    intro b hb
    constructor
    · rw [← PgDir.get_page d b, hb, PgDir.get_page]
    · rw [← PgDir.get_page p.pgdir b, hb, PgDir.get_page]
  refine abs_setProc_same hp (hkept.mono fun q hq => by simp only [Pi.add_apply]; omega) ?_
  have hview : pageView ph d = pageView m.phys p.pgdir := pageView_congr fun b hb => by
    by_cases hpg : b / PGSIZE = va / PGSIZE
    · obtain ⟨h1, h2⟩ := hpage b hpg
      rw [h1, h2, hun.present, hpr]
      exact ⟨rfl, fun _ => ⟨by rw [hun.user hu, hu], hun.mem⟩⟩
    · rw [hun.out b (by simp only [KERNBASE] at hb; omega) hpg]
      refine ⟨rfl, fun hb' => ⟨rfl, hkept _ ?_⟩⟩
      have := PgDir.userRefs_pos hb' hb
      simp only [Pi.add_apply]
      omega
  simp only [viewProc, hview]

theorem abs_setByte {va : Nat} {b : UInt8} (h : Inv ld m) (hp : m.proc i = some p) (hm : p.Maps va)
    (hw : (p.pgdir.get va).writable = true) :
    abs { m with phys := Phys.setByte m.phys p.pgdir va b } =
      update (abs m) i (some ((viewProc m.phys p).write va b)) := by
  have hlt := (h.wf i p hp).sz_lt
  have hva : va < KERNBASE := Nat.lt_trans hm.1 hlt
  have hone := h.excl i p hp va hva hm.2.1 hw
  have hpos := PgDir.userRefs_pos hm.2.1 hva
  rw [shared_eq m i, hp, userOf] at hone
  have hkept : Kept (m.sharedRest i) m.phys (Phys.setByte m.phys p.pgdir va b) :=
    Kept.setMem (by omega) _
  have hset : m = m.setProc i (some p) := by
    have : update m.proc i (some p) = m.proc := by rw [← hp, update_eq_self]
    simp [Machine.setProc, this]
  have habs := abs_setProc (x := some p) hkept
  rw [← hset] at habs
  rw [habs, Option.map_some]
  refine congrArg (fun x => update (abs m) i (some x)) ?_
  -- In the process itself only the page at `va` has that page number.
  have hview : pageView (Phys.setByte m.phys p.pgdir va b) p.pgdir =
      update (pageView m.phys p.pgdir) (va / PGSIZE)
        (some (true, update (m.phys.mem (p.pgdir.get va).ppn) (va % PGSIZE) b)) := by
    funext v
    by_cases hv : v = va / PGSIZE
    · subst hv
      rw [update_self]
      have := view_maps (s := Phys.setByte m.phys p.pgdir va b) hm hlt
      change pageView _ p.pgdir (va / PGSIZE) = _ at this
      rw [this]
      simp [Phys.setByte, Phys.setMem]
    · rw [update_of_ne hv]
      unfold pageView
      split
      · next hc =>
        have hne : (p.pgdir.get (v * PGSIZE)).ppn ≠ (p.pgdir.get va).ppn := by
          intro heq
          have := PgDir.two_le_userRefs hm.2.1 hva hc.2 hc.1 heq (by
            rw [Nat.mul_div_cancel _ (by decide : 0 < PGSIZE)]
            exact Ne.symm hv)
          omega
        simp only [Phys.setByte, Phys.setMem, update_of_ne hne]
      · rfl
  simp only [viewProc, EProc.write]
  rw [hview]
  have hcell := view_maps (s := m.phys) hm hlt
  change pageView m.phys p.pgdir (va / PGSIZE) = _ at hcell
  rw [hcell]
  rfl

theorem abs_store {va : Nat} {b : UInt8} {u : Unit} (h : Inv ld m) (hp : m.proc i = some p)
    (hm : p.Maps va) (hf : store i p va b m = .ok (u, m')) :
    abs m' = update (abs m) i (some ((viewProc m.phys p).write va b)) := by
  have hva : va < KERNBASE := Nat.lt_trans hm.1 (h.wf i p hp).sz_lt
  rcases store_cases hf with ⟨hw, rfl⟩ | ⟨-, ⟨ph, hc, -⟩ | ⟨d, ph, hc, rfl⟩⟩
  · exact abs_setByte h hp hm hw
  · have := (CoW_handler_none hc).1
    rw [hm.2.1] at this
    cases this
  · -- First the fault, which nobody sees, and then a write to a page of its own.
    have hun := CoW_handler_unshared hva (h.frame hp) hc
    have hcow := abs_cow h hp hva hm.2.2 hm.2.1 hc
    have hp' : ({ m.setProc i (some { p with pgdir := d }) with phys := ph } : Machine).proc i =
        some { p with pgdir := d } := by simp [Machine.setProc]
    have hset := abs_setByte (b := b) (inv_cow h hp hva hc) hp'
      ⟨hm.1, hun.present, hun.user hm.2.2⟩ hun.writable
    have hview : viewProc ph { p with pgdir := d } = viewProc m.phys p := by
      have := congrFun hcow i
      simpa [abs, Machine.setProc, hp] using this
    rw [hcow, hview] at hset
    exact hset

/-! ## `growproc` -/

theorem view_grow {newsz sz : Nat} {ph : Phys} (h : Inv ld m) (hp : m.proc i = some p)
    (ha : allocuvm ld p.pgdir p.sz newsz m.phys = .ok ((d, sz), ph)) (hsz : sz ≠ 0) :
    viewProc ph { p with pgdir := d, sz := sz } = (viewProc m.phys p).grow newsz := by
  have hframe := h.frame hp
  obtain ⟨hlt, ⟨hn, rfl, rfl, rfl⟩ | ⟨hle, rfl, hg, hk⟩⟩ := allocuvm_ok hframe ha hsz
  · exact (if_pos hn : EProc.grow (viewProc m.phys p) newsz = _).symm
  · refine Eq.trans ?_ (if_neg (Nat.not_lt.mpr hle) : EProc.grow (viewProc m.phys p) sz = _).symm
    have hview : pageView ph d = fun v =>
        if Between p.sz sz v then some (true, fun _ => 0) else pageView m.phys p.pgdir v := by
      funext v
      have hmul : v * PGSIZE / PGSIZE * PGSIZE = v * PGSIZE := by
        rw [Nat.mul_div_cancel _ (by decide : 0 < PGSIZE)]
      by_cases hb : Between p.sz sz v
      · rw [if_pos hb]
        obtain ⟨-, -, q, hq, hz⟩ := hg.new (v * PGSIZE) hb.1 (by rw [hmul]; exact hb.2)
        unfold pageView
        rw [hq, if_pos ⟨Nat.lt_trans hb.2 hlt, rfl⟩]
        exact congrArg (fun c => some (true, c)) hz
      · rw [if_neg hb]
        unfold pageView
        by_cases hv : v * PGSIZE < KERNBASE
        · have hout := hg.out (v * PGSIZE) (by simp only [KERNBASE] at hv; omega) (by
            rw [hmul]
            unfold Between at hb
            omega)
          rw [hout]
          split
          · next hc =>
            have hpos := PgDir.userRefs_pos hc.2 hv
            rw [hk _ (by simp only [Pi.add_apply]; omega)]
          · rfl
        · rw [if_neg fun hc => hv hc.1, if_neg fun hc => hv hc.1]
    exact congrArg (fun f => (⟨sz, f, p.zombie⟩ : EProc)) hview

theorem view_shrink {newsz sz : Nat} {ph : Phys} (h : Inv ld m) (hp : m.proc i = some p)
    (ha : deallocuvm ld p.pgdir p.sz newsz m.phys = .ok ((d, sz), ph)) :
    viewProc ph { p with pgdir := d, sz := sz } = (viewProc m.phys p).shrink newsz := by
  have hszle : p.sz ≤ KERNBASE := Nat.le_of_lt (h.wf i p hp).sz_lt
  have hkept := (acct_deallocuvm hszle (h.frame hp) ha).2.1
  rcases deallocuvm_shape hszle ha with ⟨hle, rfl, rfl, rfl⟩ | ⟨hlt, hszeq, hgone, hout⟩
  · exact (if_pos hle : EProc.shrink (viewProc m.phys p) newsz = _).symm
  · subst hszeq
    refine Eq.trans ?_ (if_neg (Nat.not_le.mpr hlt) : EProc.shrink (viewProc m.phys p) sz = _).symm
    have hview : pageView ph d = fun v =>
        if Between sz p.sz v then none else pageView m.phys p.pgdir v := by
      funext v
      have hmul : v * PGSIZE / PGSIZE * PGSIZE = v * PGSIZE := by
        rw [Nat.mul_div_cancel _ (by decide : 0 < PGSIZE)]
      by_cases hb : Between sz p.sz v
      · rw [if_pos hb]
        have hno := hgone (v * PGSIZE) hb.1 (by rw [hmul]; exact hb.2)
        unfold pageView
        rw [if_neg fun hc => by rw [hno] at hc; cases hc.2]
      · rw [if_neg hb]
        unfold pageView
        by_cases hv : v * PGSIZE < KERNBASE
        · have heq := hout (v * PGSIZE) (by simp only [KERNBASE] at hv; omega) (by
            rw [hmul]
            unfold Between at hb
            omega)
          rw [heq]
          split
          · next hc =>
            have hpos := PgDir.userRefs_pos (heq ▸ hc.2 : (d.get _).present = true) hv
            rw [heq] at hpos
            rw [hkept _ (by simp only [Pi.add_apply]; omega)]
          · rfl
        · rw [if_neg fun hc => hv hc.1, if_neg fun hc => hv hc.1]
    exact congrArg (fun f => (⟨sz, f, p.zombie⟩ : EProc)) hview

theorem abs_growproc {n : Int} (h : Inv ld m) (hp : m.proc i = some p)
    (hg : growproc ld i p n m = .ok (true, m')) :
    abs m' = update (abs m) i (some ((viewProc m.phys p).resize n)) := by
  have hszle : p.sz ≤ KERNBASE := Nat.le_of_lt (h.wf i p hp).sz_lt
  rcases growproc_cases hg with ⟨rfl, -, rfl⟩ | ⟨d, sz, ph, hcase, hr, rfl⟩
  · have hres : (viewProc m'.phys p).resize 0 = viewProc m'.phys p := by simp [EProc.resize]
    rw [hres]
    refine (update_eq_self_iff.mpr ?_).symm
    simp [abs, hp]
  · have hsz : sz ≠ 0 := by simpa using hr.symm
    rw [if_neg hsz]
    rcases hcase with ⟨hn, ha⟩ | ⟨hn, ha⟩
    · have hkept := (acct_allocuvm (h.frame hp) ha).2
      rw [abs_setProc (hkept.mono fun q hq => by simp only [Pi.add_apply]; omega), Option.map_some,
        view_grow h hp ha hsz]
      simp only [EProc.resize, if_pos hn]
      rfl
    · have hkept := (acct_deallocuvm hszle (h.frame hp) ha).2.1
      rw [abs_setProc (hkept.mono fun q hq => by simp only [Pi.add_apply]; omega), Option.map_some,
        view_shrink h hp ha]
      simp only [EProc.resize, if_neg (show ¬ 0 < n by omega), if_pos hn]
      rfl

/-! ## `fork`, `exit` and `wait` -/

theorem abs_exit {u : Unit} (he : exit i p m = .ok (u, m')) :
    abs m' = update (abs m) i (some { viewProc m.phys p with zombie := true }) := by
  obtain ⟨-, rfl⟩ := exit_ok he
  exact abs_setProc (x := some { p with zombie := true }) (.refl _ _)

theorem abs_wait {u : Unit} (h : Inv ld m) (hp : m.proc i = some p)
    (hw : wait ld i p m = .ok (u, m')) : abs m' = update (abs m) i none := by
  obtain ⟨ph1, ph2, h1, h2, rfl⟩ := wait_ok hw
  have hkept := (acct_wait h hp h1 h2).2
  exact abs_setProc (x := none) (hkept.mono fun q hq => by simp only [Pi.add_apply]; omega)

theorem abs_unused (m : Machine) : (abs m).unused = m.unused := by
  unfold Eager.unused Machine.unused
  congr 1
  funext i
  simp [abs]

theorem view_fork {ph1 ph2 : Phys} {pgdir c : PgDir} {f : Nat → Nat} (hwf : p.Wf ld)
    (hkept : Kept f s ph2) (hf : ∀ va < KERNBASE, (p.pgdir.get va).present = true →
      0 < f (p.pgdir.get va).ppn)
    (hc : copyuvm ld p.pgdir p.sz ph1 = .ok ((pgdir, some c), ph2)) :
    pageView ph2 pgdir = pageView s p.pgdir ∧ pageView ph2 c = pageView s p.pgdir := by
  have hshape := (copyuvm_shape (Nat.le_of_lt hwf.sz_lt) hc).2
  constructor
  · refine pageView_congr fun va hva => ?_
    have := hshape va hva
    split at this
    · rw [this.2.2]
      exact ⟨rfl, fun hp => ⟨rfl, hkept _ (hf va hva hp)⟩⟩
    · rw [this.2]
      exact ⟨rfl, fun hp => ⟨rfl, hkept _ (hf va hva hp)⟩⟩
  · refine pageView_congr fun va hva => ?_
    have := hshape va hva
    split at this
    · rw [this.2.1]
      exact ⟨rfl, fun hp => ⟨rfl, hkept _ (hf va hva hp)⟩⟩
    · next hlt =>
      have habs : (p.pgdir.get va).present = false := by
        by_contra hp
        exact hlt (hwf.below va hva (by simpa using hp))
      rw [this.1, habs]
      exact ⟨rfl, fun hp => by cases hp⟩

theorem abs_fork (h : Inv ld m) (hp : m.proc i = some p) (hz : p.zombie = false)
    (hf : fork ld i p m = .ok (true, m')) :
    ∃ j, m.unused = some j ∧ abs m' = update (abs m) j (some (viewProc m.phys p)) := by
  have hwf := h.wf i p hp
  rcases fork_cases hf with ⟨hr, -⟩ | ⟨-, -, hr, -⟩ |
    ⟨j, kstack, ph1, pgdir, d, ph2, hu, hk, hc, ⟨-, hr, -⟩ | ⟨c, rfl, -, rfl⟩⟩
  · cases hr
  · cases hr
  · cases hr
  · refine ⟨j, hu, ?_⟩
    have hj := unused_none hu
    obtain ⟨-, -, -, ha1⟩ := acct_kalloc (h.frame hp) hk
    have hkept := (acct_copyuvm (Nat.le_of_lt hwf.sz_lt) ha1 hc).2.1
    -- `kalloc` leaves the memory alone, and `copyuvm` keeps every page in use.
    have hkept' : Kept (p.pgdir.userRefs + m.sharedRest i) m.phys ph2 := by
      intro q hq
      rw [← kalloc_mem hk]
      refine hkept q ?_
      simp only [Pi.add_apply] at *
      omega
    obtain ⟨hparent, hchild⟩ := view_fork hwf hkept' (fun va hva hpr => by
      have := PgDir.userRefs_pos hpr hva
      simp only [Pi.add_apply]
      omega) hc
    have hi : abs { m.setProc i (some { p with pgdir := pgdir }) with phys := ph2 } = abs m :=
      abs_setProc_same hp (hkept'.mono fun q hq => by simp only [Pi.add_apply]; omega)
        (congrArg (fun f => (⟨p.sz, f, p.zombie⟩ : EProc)) hparent)
    have hj' := abs_setProc (i := j) (x := some (childOf p c kstack))
      (m := { m.setProc i (some { p with pgdir := pgdir }) with phys := ph2 })
      (Kept.refl _ ph2)
    rw [hi, Option.map_some] at hj'
    rw [show viewProc ph2 (childOf p c kstack) = viewProc m.phys p by
      simp only [viewProc, childOf, hchild, hz]] at hj'
    exact hj'

/-! ## Every request -/

theorem call_some {α : Type} {f : Proc → M α} {a : α} (h : m.call i f = some (a, m')) :
    ∃ p, m.proc i = some p ∧ p.zombie = false ∧ f p m = .ok (a, m') := by
  unfold Machine.call at h
  split at h
  · next p hp =>
    split at h
    · cases h
    · next hz =>
      refine ⟨p, hp, by simpa using hz, ?_⟩
      cases hf : f p m with
      | error e => rw [hf] at h; cases h
      | ok r => rw [hf] at h; exact congrArg Except.ok (Option.some.inj h)
  · cases h

theorem succeed_some {r : Option (Bool × Machine)} {o : Option UInt8} (h : succeed r = some (m', o)) :
    r = some (true, m') ∧ o = none := by
  obtain ⟨⟨ok, m1⟩, hr, h⟩ := Option.bind_eq_some_iff.mp h
  dsimp only at h
  split at h
  · next hok =>
    obtain ⟨rfl, rfl⟩ := Prod.mk.inj (Option.some.inj h)
    exact ⟨by rw [hr, hok], rfl⟩
  · cases h

theorem live_abs (hp : m.proc i = some p) (hz : p.zombie = false) :
    (abs m).live i = some (viewProc m.phys p) := by
  simp [Eager.live, abs, hp, viewProc, hz]

theorem map_none_some {x : Option Machine} {o : Option UInt8} (h : x.map (·, none) = some (m', o)) :
    x = some m' ∧ o = none := by
  obtain ⟨m1, hx, heq⟩ := Option.map_eq_some_iff.mp h
  obtain ⟨rfl, rfl⟩ := Prod.mk.inj heq
  exact ⟨hx, rfl⟩

/-- One request: the reference kernel takes the same step and gives the same output. -/
theorem cow_refines {r : Req} {o : Option UInt8} (h : Inv ld m) (hc : cow ld m r = some (m', o)) :
    Inv ld m' ∧ eager (abs m) r = some (abs m', o) := by
  cases r with
  | fork i =>
    obtain ⟨hcall, rfl⟩ := succeed_some hc
    obtain ⟨p, hp, hz, hf⟩ := call_some hcall
    obtain ⟨j, hu, habs⟩ := abs_fork h hp hz hf
    refine ⟨inv_fork h hp hf, ?_⟩
    simp only [eager, live_abs hp hz, Option.bind_some, abs_unused, hu, Option.map_some, habs]
  | load i va =>
    obtain ⟨p, hp, hc⟩ := Option.bind_eq_some_iff.mp hc
    split at hc
    · next hm =>
      obtain ⟨rfl, rfl⟩ := Prod.mk.inj (Option.some.inj hc)
      have hlt := (h.wf i p hp).sz_lt
      refine ⟨h, ?_⟩
      simp only [eager, live_abs hp hm.1, Option.bind_some, view_Maps hm.2 hlt, if_true,
        view_byte hm.2 hlt]
    · cases hc
  | store i va b =>
    obtain ⟨hn, rfl⟩ := map_none_some hc
    obtain ⟨p, hp, hz, hf⟩ := by_some hn
    obtain ⟨hm, hf⟩ := if_throw_ok hf
    have hlt := (h.wf i p hp).sz_lt
    refine ⟨inv_store h hp (Nat.lt_trans hm.1 hlt) hf, ?_⟩
    simp only [eager, live_abs hp hz, Option.bind_some, view_Maps hm hlt, if_true,
      abs_store h hp hm hf]
  | growproc i n =>
    obtain ⟨hcall, rfl⟩ := succeed_some hc
    obtain ⟨p, hp, hz, hf⟩ := call_some hcall
    refine ⟨inv_growproc h hp hf, ?_⟩
    simp only [eager, live_abs hp hz, Option.map_some, abs_growproc h hp hf]
  | exit i =>
    obtain ⟨hn, rfl⟩ := map_none_some hc
    obtain ⟨p, hp, hz, hf⟩ := by_some hn
    refine ⟨inv_exit h hp hf, ?_⟩
    simp only [eager, live_abs hp hz, Option.map_some, abs_exit hf]
  | wait i j =>
    obtain ⟨hn, rfl⟩ := map_none_some hc
    have hinv := inv_next (a := .wait i j) h trivial hn
    obtain ⟨p, hp, hz, hf⟩ := by_some hn
    refine ⟨hinv, ?_⟩
    cases hj : m.proc j with
    | none => rw [hj] at hf; exact (throw_ok hf).elim
    | some pj =>
      rw [hj] at hf
      obtain ⟨hzj, hf⟩ := if_throw_ok hf
      have habs : abs m j = some (viewProc m.phys pj) := by simp [abs, hj]
      simp only [eager, live_abs hp hz, Option.bind_some, habs, viewProc, hzj, if_true,
        abs_wait h hj hf]

/-- A store by one process is invisible to all others. -/
theorem store_invisible {va : Nat} {b : UInt8} {o : Option UInt8} (h : Inv ld m)
    (hc : cow ld m (.store i va b) = some (m', o)) (j : Fin NPROC) (hj : j ≠ i) :
    abs m' j = abs m j := by
  obtain ⟨hn, -⟩ := map_none_some hc
  obtain ⟨p, hp, -, hf⟩ := by_some hn
  obtain ⟨hm, hf⟩ := if_throw_ok hf
  rw [abs_store h hp hm hf, update_of_ne hj]

/-- From every state that the kernel reaches, every sequence of requests that the kernel with
copy-on-write serves gives the outputs of the reference kernel. -/
theorem cow_refines_eager {ncpu : Nat} {mem : Nat → Page} {m0 : Machine} {tr : List (Machine × Act)}
    {rs : List Req} {outs : List (Option UInt8)}
    (hboot : boot ld ncpu mem = .ok m0) (hrun : Path (Next (next ld)) m0 tr m)
    (hshort : Meets ShortArgs tr) (hserve : serve (cow ld) m rs = some (m', outs)) :
    serve eager (abs m) rs = some (abs m', outs) ∧
    ∀ i va b m'' o, cow ld m' (.store i va b) = some (m'', o) → ∀ j, j ≠ i → abs m'' j = abs m' j := by
  have hinv := (inv_along hboot hrun hshort).2
  obtain ⟨_, hserve', hinv', rfl⟩ := serve_sim (R := fun m t => Inv ld m ∧ t = abs m)
    (by rintro m1 _ a m2 b ⟨h, rfl⟩ hc
        exact ⟨_, (cow_refines h hc).2, (cow_refines h hc).1, rfl⟩) ⟨hinv, rfl⟩ hserve
  exact ⟨hserve', fun i va b m'' o hc j hj => store_invisible hinv' hc j hj⟩

/-- A store, a `fork` and a load. -/
theorem cow_refines_eager_after_fork :
    ∃ m0 tr m m', boot demoLinker 1 (fun _ _ => 0) = .ok m0 ∧ Path (Next (next demoLinker)) m0 tr m ∧
      Meets ShortArgs tr ∧
      serve (cow demoLinker) m [.store initproc 0 7, .fork initproc, .load initproc 0] =
        some (m', [none, none, some 7]) ∧
      serve eager (abs m) [.store initproc 0 7, .fork initproc, .load initproc 0] =
        some (abs m', [none, none, some 7]) := by
  obtain ⟨m0, m, p, hboot, hf, hinv, hfree, hp, hother, hz, hsz, hmaps, -⟩ :=
    first_growth (c := 1) (n := 0x1000) (by decide) (by decide) (by decide)
  obtain ⟨tr, hrun, htr⟩ := path_of_follow hf
  have hshort := meets_growth htr
  have hw := writes_of_inv hinv hp hz hmaps
  have hsz' : p.sz = 0x2000 := by rw [hsz]
  have hstore := store_next demoLinker 7 hp hw (a := 0) (by omega)
  obtain ⟨m1, hm1⟩ : ∃ m1, m1 = ({ m with phys := Phys.setByte m.phys p.pgdir 0 7 } : Machine) :=
    ⟨_, rfl⟩
  rw [← hm1] at hstore
  have hinv1 : Inv demoLinker m1 := hm1 ▸ inv_setByte hinv ⟨initproc, p, hp⟩
  have hp1 : m1.proc initproc = some p := by rw [hm1]; exact hp
  have hfree1 : m1.phys.freelist = m.phys.freelist := by rw [hm1]; rfl
  obtain ⟨j, hu⟩ := exists_unused (m := m1) (k := ⟨1, by decide⟩)
    (by rw [hm1]; exact hother _ (by decide))
  obtain ⟨m2, hfork, -⟩ := fork_total hinv1 hp1 (fun b hb => (hmaps b hb).1.2.1) hu
    (by rw [hfree1, hsz']; simp only [PGSIZE]; omega)
  obtain ⟨j', hu', habs⟩ := abs_fork hinv1 hp1 hz hfork
  have hne : initproc ≠ j' := by
    rintro rfl
    rw [unused_none hu'] at hp1
    cases hp1
  -- The parent sees in `m2` what it saw in `m1`.
  have hview := congrFun habs initproc
  rw [Function.update_of_ne hne] at hview
  obtain ⟨p2, hp2, hv2⟩ : ∃ p2, m2.proc initproc = some p2 ∧
      viewProc m2.phys p2 = viewProc m1.phys p := by
    simp only [abs, hp1, Option.map_some] at hview
    obtain ⟨p2, hp2, hv2⟩ := Option.map_eq_some_iff.mp hview
    exact ⟨p2, hp2, hv2⟩
  have hlt := (hinv1.wf _ _ hp1).sz_lt
  have hmaps0 := (hmaps 0 (by omega)).1
  have hz2 : p2.zombie = false := (congrArg EProc.zombie hv2).trans hz
  have hm2 : p2.Maps 0 := maps_of_view (s := m2.phys) (hv2 ▸ view_Maps hmaps0 hlt)
  have hlt2 := ((inv_fork hinv1 hp1 hfork).wf _ _ hp2).sz_lt
  have hbyte : Phys.byte m2.phys p2.pgdir 0 = 7 := by
    rw [← view_byte hm2 hlt2, hv2, view_byte hmaps0 hlt, hm1, byte_setByte _ hw (by omega) (by omega),
      if_pos rfl]
  have hserve : serve (cow demoLinker) m [.store initproc 0 7, .fork initproc, .load initproc 0] =
      some (m2, [none, none, some 7]) := by
    have h1 : cow demoLinker m (.store initproc 0 7) = some (m1, none) := by rw [cow, hstore]; rfl
    have h2 : cow demoLinker m1 (.fork initproc) = some (m2, none) := by
      simp only [cow, Machine.call, hp1, hz, hfork]
      rfl
    have h3 : cow demoLinker m2 (.load initproc 0) = some (m2, some 7) := by
      simp only [cow, hp2, Option.bind_some, hz2, hm2, and_self, if_true, hbyte]
    simp only [serve, h1, h2, h3, Option.bind_some, Option.map_some]
  exact ⟨m0, tr, m, m2, hboot, hrun, hshort, hserve, (cow_refines_eager hboot hrun hshort hserve).1⟩

end Xv6.Sys
