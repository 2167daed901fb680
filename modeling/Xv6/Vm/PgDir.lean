import Xv6.Lib.Pool
import Xv6.Vm.Code

/-!
# Page directories

What `get` reads after `set` and after a new table, and the two kinds of references that a page
directory holds: to the pages it is made of, and to the user pages it maps.
-/

open Xv6.Pool Function Finset

namespace Xv6.Vm

/-! ## Reading and writing entries -/

def PgDir.HasTab (d : PgDir) (va : Nat) : Prop := (d.tab (pdx va)).isSome

instance (d : PgDir) (va : Nat) : Decidable (d.HasTab va) := inferInstanceAs (Decidable (_ = true))

variable {d d' : PgDir} {a b va : Nat} {e : Pte}

theorem PgDir.get_congr (d : PgDir) (h1 : pdx a = pdx b) (h2 : ptx a = ptx b) : d.get a = d.get b := by
  simp only [PgDir.get, h1, h2]

theorem PgDir.get_page (d : PgDir) (va : Nat) : d.get (va / PGSIZE * PGSIZE) = d.get va := by
  apply PgDir.get_congr <;> simp only [pdx, ptx, PGSIZE] <;> omega

theorem PgDir.hasTab_of_present (h : (d.get va).present = true) : d.HasTab va := by
  unfold PgDir.HasTab
  unfold PgDir.get at h
  split at h
  · next t ht => simp [ht]
  · cases h

theorem PgDir.get_of_no_tab (h : ¬ d.HasTab va) : d.get va = .zero := by
  unfold PgDir.HasTab at h
  unfold PgDir.get
  split
  · next t ht => simp [ht] at h
  · rfl

theorem PgDir.get_set_self (h : d.HasTab a) : (d.set a e).get a = e := by
  obtain ⟨t, ht⟩ := Option.isSome_iff_exists.mp h
  simp [PgDir.get, PgDir.set, ht]

theorem PgDir.get_set_ne (h : pdx b ≠ pdx a ∨ ptx b ≠ ptx a) : (d.set a e).get b = d.get b := by
  unfold PgDir.set
  split
  · next t ht =>
    unfold PgDir.get
    by_cases h1 : pdx b = pdx a
    · have h2 : ptx b ≠ ptx a := by
        rcases h with h | h
        · exact absurd h1 h
        · exact h
      simp [h1, ht, update_of_ne h2]
    · simp [update_of_ne h1]
  · rfl

theorem PgDir.get_set (h : d.HasTab a) (ha : a < 0x100000000) (hb : b < 0x100000000) :
    (d.set a e).get b = if b / PGSIZE = a / PGSIZE then e else d.get b := by
  split
  · next hp =>
    obtain ⟨h1, h2⟩ := (same_entry hb ha).mpr hp
    rw [PgDir.get_congr _ h1 h2, PgDir.get_set_self h]
  · next hp =>
    apply PgDir.get_set_ne
    by_contra hc
    simp only [ne_eq, not_or, Classical.not_not] at hc
    exact hp ((same_entry hb ha).mp hc)

@[simp] theorem PgDir.set_page (d : PgDir) (va : Nat) (e : Pte) : (d.set va e).page = d.page := by
  unfold PgDir.set; split <;> rfl

theorem PgDir.set_tab_isSome (d : PgDir) (va : Nat) (e : Pte) (i : Nat) :
    ((d.set va e).tab i).isSome = (d.tab i).isSome := by
  unfold PgDir.set
  split
  · next t ht =>
    by_cases hi : i = pdx va
    · subst hi; simp [ht]
    · simp [update_of_ne hi]
  · rfl

@[simp] theorem PgDir.hasTab_set (d : PgDir) (a : Nat) (e : Pte) (b : Nat) :
    (d.set a e).HasTab b ↔ d.HasTab b := by
  unfold PgDir.HasTab
  rw [PgDir.set_tab_isSome]

theorem PgDir.get_addTab {i p : Nat} (h : d.tab i = none) (b : Nat) :
    (d.addTab i p).get b = d.get b := by
  unfold PgDir.get PgDir.addTab
  by_cases hb : pdx b = i
  · subst hb; simp [h]
  · simp [update_of_ne hb]

/-! ## Growing directories -/

/-- `d'` is `d` with more tables and other entries. -/
structure PgDir.Ext (d d' : PgDir) : Prop where
  page : d'.page = d.page
  tabs : ∀ i, (d.tab i).isSome → (d'.tab i).isSome

theorem PgDir.Ext.refl (d : PgDir) : d.Ext d := ⟨rfl, fun _ h => h⟩

theorem PgDir.Ext.trans {d1 d2 d3 : PgDir} (h : d1.Ext d2) (h' : d2.Ext d3) : d1.Ext d3 :=
  ⟨h'.page.trans h.page, fun i hi => h'.tabs i (h.tabs i hi)⟩

theorem PgDir.Ext.hasTab (h : d.Ext d') (ha : d.HasTab a) : d'.HasTab a := h.tabs _ ha

theorem PgDir.ext_set (d : PgDir) (va : Nat) (e : Pte) : d.Ext (d.set va e) :=
  ⟨PgDir.set_page d va e, fun i hi => by rw [PgDir.set_tab_isSome]; exact hi⟩

theorem PgDir.ext_addTab (d : PgDir) (i p : Nat) : d.Ext (d.addTab i p) := by
  refine ⟨rfl, fun j hj => ?_⟩
  by_cases h : j = i
  · subst h; simp [PgDir.addTab]
  · simpa [PgDir.addTab, update_of_ne h] using hj

theorem PgDir.hasTab_addTab (d : PgDir) (va p : Nat) : (d.addTab (pdx va) p).HasTab va := by
  simp [PgDir.HasTab, PgDir.addTab]

/-! ## References -/

/-- The references of one entry. -/
def Pte.holds (e : Pte) (p : Nat) : Nat := if e.present then one e.ppn p else 0

@[simp] theorem Pte.holds_zero (p : Nat) : Pte.zero.holds p = 0 := rfl

theorem Pte.holds_of_present (h : e.present = true) (p : Nat) : e.holds p = one e.ppn p := if_pos h

theorem Pte.holds_of_absent (h : e.present = false) (p : Nat) : e.holds p = 0 := by
  simp [Pte.holds, h]

/-- The pages below `KERNBASE`. -/
noncomputable def userPages : Finset Nat := (Set.finite_lt_nat 0x80000).toFinset

theorem mem_userPages {v : Nat} : v ∈ userPages ↔ v * PGSIZE < KERNBASE := by
  simp only [userPages, Set.Finite.mem_toFinset, Set.mem_ofPred_eq, PGSIZE, KERNBASE]
  omega

/-- How many entries below `KERNBASE` are present and hold the page `p`. -/
noncomputable def PgDir.userRefs (d : PgDir) (p : Nat) : Nat :=
  ∑ v ∈ userPages, (d.get (v * PGSIZE)).holds p

def tabRef (t : Option PgTab) (p : Nat) : Nat :=
  match t with
  | some t => one t.page p
  | none => 0

/-- The directory's own page and those of its tables. -/
def PgDir.kernRefs (d : PgDir) (p : Nat) : Nat :=
  one d.page p + ∑ i ∈ Finset.range NPDENTRIES, tabRef (d.tab i) p

theorem PgDir.userRefs_congr (h : ∀ va < KERNBASE, d'.get va = d.get va) (p : Nat) :
    d'.userRefs p = d.userRefs p := by
  apply sum_congr rfl
  intro v hv
  rw [h (v * PGSIZE) (mem_userPages.mp hv)]

theorem PgDir.userRefs_set (h : d.HasTab a) (ha : a < KERNBASE) (p : Nat) :
    (d.set a e).userRefs p + (d.get a).holds p = d.userRefs p + e.holds p := by
  have hv : a / PGSIZE ∈ userPages := by
    rw [mem_userPages]
    simp only [PGSIZE, KERNBASE] at *
    omega
  have hlt : a < 0x100000000 := by simp only [KERNBASE] at ha; omega
  have := sum_change _ (fun v => (d.get (v * PGSIZE)).holds p)
    (fun v => ((d.set a e).get (v * PGSIZE)).holds p) _ hv (by
      intro x hx hne
      have hx' : x * PGSIZE < 0x100000000 := Nat.lt_trans (mem_userPages.mp hx) (by decide)
      rw [PgDir.get_set h hlt hx', if_neg (by simpa [PGSIZE] using hne)])
  simp only [PgDir.get_page, PgDir.get_set_self h] at this
  exact this

theorem PgDir.userRefs_pos (h : (d.get va).present = true) (hva : va < KERNBASE) :
    0 < d.userRefs (d.get va).ppn := by
  have hv : va / PGSIZE ∈ userPages := by
    rw [mem_userPages]
    simp only [PGSIZE, KERNBASE] at *
    omega
  have hle := single_le_sum
    (f := fun v => (d.get (v * PGSIZE)).holds (d.get va).ppn) (fun _ _ => Nat.zero_le _) hv
  simp only [PgDir.get_page, Pte.holds_of_present h, one_self] at hle
  exact hle

theorem PgDir.two_le_userRefs {va va' : Nat} (h : (d.get va).present = true) (hva : va < KERNBASE)
    (h' : (d.get va').present = true) (hva' : va' < KERNBASE) (hp : (d.get va').ppn = (d.get va).ppn)
    (hne : va / PGSIZE ≠ va' / PGSIZE) : 2 ≤ d.userRefs (d.get va).ppn := by
  have hsub : {va / PGSIZE, va' / PGSIZE} ⊆ userPages := by
    intro v hv
    rcases mem_insert.mp hv with rfl | hv
    · exact mem_userPages.mpr (by simp only [KERNBASE, PGSIZE] at *; omega)
    · rw [mem_singleton.mp hv]
      exact mem_userPages.mpr (by simp only [KERNBASE, PGSIZE] at *; omega)
  have hle := sum_le_sum_of_subset (f := fun v => (d.get (v * PGSIZE)).holds (d.get va).ppn) hsub
  rw [sum_pair hne, PgDir.get_page, PgDir.get_page, Pte.holds_of_present h,
    Pte.holds_of_present h', hp, one_self] at hle
  exact hle

theorem PgDir.userRefs_le (h : ∀ va < KERNBASE, (d'.get va).present = true →
    (d.get va).present = true ∧ (d'.get va).ppn = (d.get va).ppn) (p : Nat) :
    d'.userRefs p ≤ d.userRefs p := by
  apply sum_le_sum
  intro v hv
  by_cases hp : (d'.get (v * PGSIZE)).present = true
  · obtain ⟨h1, h2⟩ := h _ (mem_userPages.mp hv) hp
    rw [Pte.holds_of_present hp, Pte.holds_of_present h1, h2]
  · rw [Pte.holds_of_absent (by simpa using hp)]
    exact Nat.zero_le _

theorem PgDir.userRefs_eq_zero (h : ∀ va < KERNBASE, (d.get va).present = false) (p : Nat) :
    d.userRefs p = 0 := by
  apply sum_eq_zero
  intro v hv
  apply Pte.holds_of_absent
  exact h _ (mem_userPages.mp hv)

theorem exists_of_userRefs_pos {p : Nat} (h : 0 < d.userRefs p) :
    ∃ va < KERNBASE, (d.get va).present = true ∧ (d.get va).ppn = p := by
  obtain ⟨v, hv, hne⟩ := exists_ne_zero_of_sum_ne_zero (Nat.pos_iff_ne_zero.mp h)
  refine ⟨v * PGSIZE, mem_userPages.mp hv, ?_⟩
  unfold Pte.holds at hne
  split at hne
  · next hp =>
    refine ⟨hp, ?_⟩
    by_contra hc
    exact hne (one_of_ne (Ne.symm hc))
  · exact absurd rfl hne

theorem PgDir.kernRefs_set (d : PgDir) (va : Nat) (e : Pte) (p : Nat) :
    (d.set va e).kernRefs p = d.kernRefs p := by
  have htab : ∀ i, tabRef ((d.set va e).tab i) p = tabRef (d.tab i) p := by
    intro i
    unfold PgDir.set
    split
    · next t ht =>
      by_cases hi : i = pdx va
      · subst hi; simp [tabRef, ht]
      · simp [update_of_ne hi]
    · rfl
  simp only [PgDir.kernRefs, PgDir.set_page, htab]

theorem PgDir.kernRefs_addTab {i q : Nat} (h : d.tab i = none) (hi : i < NPDENTRIES) (p : Nat) :
    (d.addTab i q).kernRefs p = d.kernRefs p + one q p := by
  have hm : i ∈ Finset.range NPDENTRIES := mem_range.mpr hi
  have := sum_change _ (fun j => tabRef (d.tab j) p) (fun j => tabRef ((d.addTab i q).tab j) p) _ hm
    (fun j _ hj => by simp [PgDir.addTab, update_of_ne hj])
  simp only [h, PgDir.addTab, update_self, tabRef] at this
  simp only [PgDir.kernRefs, PgDir.addTab, tabRef]
  omega

theorem PgDir.kernRefs_empty (q p : Nat) :
    ({ page := q, tab := fun _ => none } : PgDir).kernRefs p = one q p := by
  simp [PgDir.kernRefs, tabRef]

theorem PgDir.get_empty (q b : Nat) :
    ({ page := q, tab := fun _ => none } : PgDir).get b = .zero := rfl

theorem pdx_lt (va : Nat) : pdx va < NPDENTRIES := Nat.mod_lt _ (by decide)

theorem PgDir.set_tab_of_ne {va i : Nat} {e : Pte} (h : pdx va ≠ i) : (d.set va e).tab i = d.tab i := by
  unfold PgDir.set
  split
  · exact update_of_ne (Ne.symm h) _ _
  · rfl

/-! ## Directories with the same tables -/

structure PgDir.Same (d d' : PgDir) : Prop where
  page : d'.page = d.page
  tab : ∀ i < NPDENTRIES, d'.tab i = d.tab i

theorem PgDir.Same.trans {d1 d2 d3 : PgDir} (h : d1.Same d2) (h' : d2.Same d3) : d1.Same d3 :=
  ⟨h'.page.trans h.page, fun i hi => (h'.tab i hi).trans (h.tab i hi)⟩

theorem PgDir.Same.get (h : d.Same d') (va : Nat) : d'.get va = d.get va := by
  unfold PgDir.get
  rw [h.tab _ (pdx_lt va)]

theorem PgDir.Same.userRefs (h : d.Same d') (p : Nat) : d'.userRefs p = d.userRefs p :=
  PgDir.userRefs_congr (fun va _ => h.get va) p

theorem PgDir.Same.kernRefs (h : d.Same d') (p : Nat) : d'.kernRefs p = d.kernRefs p := by
  unfold PgDir.kernRefs
  rw [h.page]
  refine congrArg _ (sum_congr rfl fun i hi => ?_)
  rw [h.tab i (mem_range.mp hi)]

end Xv6.Vm
