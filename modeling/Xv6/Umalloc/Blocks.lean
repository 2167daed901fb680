import Xv6.Lib.Loop

/-!
# Blocks

A heap as its blocks: a set `F` of free ones, linked in order through `ptr`, and the blocks `L` in use.
`size` counts units of 8 bytes. The block `base` has size 0 and is below all the others.
-/

open Xv6.Loop Function Finset

namespace Xv6.Umalloc

/-- All of the `n` bytes from `a` on are in one of the regions. -/
def Covered (R : List (Nat × Nat)) (a n : Nat) : Prop :=
  ∀ b, a ≤ b → b < a + n → ∃ r ∈ R, r.1 ≤ b ∧ b < r.1 + r.2

/-- The blocks at `a` and `b` have no byte in common. -/
def Apart (size : Nat → Nat) (a b : Nat) : Prop := a + 8 * size a ≤ b ∨ b + 8 * size b ≤ a

/-- The regions are above `base`, and inside the address space. -/
def Bounded (base : Nat) (R : List (Nat × Nat)) : Prop := ∀ r ∈ R, base + 8 ≤ r.1 ∧ r.1 + r.2 < 0x100000000

/-- `a` is the address of a header. -/
def Header (F : Finset Nat) (L : Nat → Prop) (a : Nat) : Prop := a ∈ F ∨ L a

structure Blocks (base : Nat) (R : List (Nat × Nat)) (ptr size : Nat → Nat) (F : Finset Nat)
    (L : Nat → Prop) : Prop where
  bounded : Bounded base R
  circ : Circular F ptr
  base_mem : base ∈ F
  base_size : size base = 0
  not_live : ∀ a ∈ F, ¬ L a
  block : ∀ a, Header F L a → a ≠ base → 0 < size a ∧ Covered R a (8 * size a)
  apart : ∀ a b, Header F L a → Header F L b → a ≠ b → Apart size a b

/-- The next free block begins where `a` ends. -/
def Abuts (ptr size : Nat → Nat) (a : Nat) : Prop := a < ptr a ∧ a + 8 * size a = ptr a

def Tight (ptr size : Nat → Nat) (F : Finset Nat) : Prop := ∀ a ∈ F, ¬ Abuts ptr size a

variable {base : Nat} {R R' : List (Nat × Nat)} {ptr ptr' size size' : Nat → Nat} {F F' : Finset Nat}
  {L L' : Nat → Prop} {a b p x y n : Nat}

theorem Covered.bounds (h : Covered R a (8 * n)) (hn : 0 < n) (hR : Bounded base R) :
    base + 8 ≤ a ∧ a + 8 * n < 0x100000000 := by
  obtain ⟨r, hr, hlo, -⟩ := h a (Nat.le_refl a) (by omega)
  obtain ⟨r', hr', -, hhi⟩ := h (a + 8 * n - 1) (by omega) (by omega)
  have h1 := hR r hr
  have h2 := hR r' hr'
  omega

theorem Covered.mono (h : Covered R a n) (hR : ∀ r ∈ R, r ∈ R') : Covered R' a n := by
  intro b hb hlt
  obtain ⟨r, hr, hin⟩ := h b hb hlt
  exact ⟨r, hR r hr, hin⟩

theorem Covered.append {m : Nat} (h : Covered R a n) (h' : Covered R (a + n) m) : Covered R a (n + m) := by
  intro b hb hlt
  by_cases hbn : b < a + n
  · exact h b hb hbn
  · exact h' b (by omega) (by omega)

theorem Covered.sub {m : Nat} (h : Covered R a n) (hle : a ≤ b) (hm : b + m ≤ a + n) : Covered R b m :=
  fun c hc hlt => h c (by omega) (by omega)

namespace Blocks

/-! ## The headers -/

theorem bounds (h : Blocks base R ptr size F L) (ha : Header F L a) (hne : a ≠ base) :
    0 < size a ∧ base + 8 ≤ a ∧ a + 8 * size a < 0x100000000 := by
  obtain ⟨hpos, hc⟩ := h.block a ha hne
  exact ⟨hpos, hc.bounds hpos h.bounded⟩

theorem base_le (h : Blocks base R ptr size F L) (ha : Header F L a) : base ≤ a := by
  by_cases hne : a = base
  · exact Nat.le_of_eq hne.symm
  · have := h.bounds ha hne
    omega

theorem live_ne_base (h : Blocks base R ptr size F L) (hx : L x) : x ≠ base :=
  fun heq => h.not_live base h.base_mem (heq ▸ hx)

theorem sorted (h : Blocks base R ptr size F L) (ha : Header F L a) (hb : Header F L b) (hlt : a < b) :
    a + 8 * size a ≤ b := by
  have := h.apart a b ha hb (by omega)
  simp only [Apart] at this
  omega

theorem spread (h : Blocks base R ptr size F L) (ha : Header F L a) (hb : Header F L b) (hne : a ≠ b) :
    a + 8 ≤ b ∨ b + 8 ≤ a := by
  by_cases hab : a = base
  · have := h.bounds hb (by omega)
    omega
  by_cases hbb : b = base
  · have := h.bounds ha hab
    omega
  have hsa := (h.bounds ha hab).1
  have hsb := (h.bounds hb hbb).1
  have hap := h.apart a b ha hb hne
  simp only [Apart] at hap
  omega

theorem congr (h : Blocks base R ptr size F L) (hptr : ∀ a ∈ F, ptr' a = ptr a)
    (hsize : ∀ a, Header F L a → size' a = size a) : Blocks base R ptr' size' F L where
  bounded := h.bounded
  circ := h.circ.congr hptr
  base_mem := h.base_mem
  base_size := by rw [hsize base (.inl h.base_mem), h.base_size]
  not_live := h.not_live
  block a ha hne := by rw [hsize a ha]; exact h.block a ha hne
  apart a b ha hb hne := by
    rw [Apart, hsize a ha, hsize b hb]
    exact h.apart a b ha hb hne

theorem drop (h : Blocks base R ptr size F L) (hL : ∀ x, L' x → L x) : Blocks base R ptr size F L' :=
  have hH : ∀ a, Header F L' a → Header F L a := fun a ha => ha.imp_right (hL a)
  ⟨h.bounded, h.circ, h.base_mem, h.base_size, fun a ha hx => h.not_live a ha (hL a hx),
    fun a ha => h.block a (hH a ha), fun a b ha hb => h.apart a b (hH a ha) (hH b hb)⟩

theorem region {r : Nat × Nat} (h : Blocks base R ptr size F L) (hr : base + 8 ≤ r.1 ∧ r.1 + r.2 < 0x100000000) :
    Blocks base (r :: R) ptr size F L :=
  ⟨List.forall_mem_cons.mpr ⟨hr, h.bounded⟩, h.circ, h.base_mem, h.base_size, h.not_live,
    fun a ha hne => (h.block a ha hne).imp_right fun hc => hc.mono fun _ => List.mem_cons_of_mem r, h.apart⟩

/-! ## Adding a free block, and joining two -/

/-- A block that is apart from all the others. -/
structure New (R : List (Nat × Nat)) (size : Nat → Nat) (F : Finset Nat) (L : Nat → Prop) (b : Nat) : Prop where
  pos : 0 < size b
  covered : Covered R b (8 * size b)
  apart : ∀ a, Header F L a → Apart size a b

theorem New.not_header (hb : New R size F L b) : ¬ Header F L b := by
  intro hH
  have hpos := hb.pos
  have := hb.apart b hH
  simp only [Apart] at this
  omega

theorem insert (h : Blocks base R ptr size F L) (hb : New R size F L b) (hp : p ∈ F)
    (hbt : Between ptr p b) :
    Blocks base R (update (update ptr b (ptr p)) p b) size (insert b F) L := by
  have hH : ∀ a, Header (Insert.insert b F) L a → a = b ∨ Header F L a := by
    rintro a (ha | ha)
    · exact (mem_insert.mp ha).imp_right .inl
    · exact .inr (.inr ha)
  refine ⟨h.bounded, h.circ.insert hp (fun hF => hb.not_header (.inl hF)) hbt,
    mem_insert_of_mem h.base_mem, h.base_size, fun a ha hL => ?_, fun a ha hne => ?_,
    fun a c ha hc hne => ?_⟩
  · rcases mem_insert.mp ha with rfl | ha
    · exact hb.not_header (.inr hL)
    · exact h.not_live a ha hL
  · rcases hH a ha with rfl | ha
    · exact ⟨hb.pos, hb.covered⟩
    · exact h.block a ha hne
  · rcases hH a ha with rfl | haF <;> rcases hH c hc with rfl | hcF
    · exact absurd rfl hne
    · exact (hb.apart c hcF).symm
    · exact hb.apart a haF
    · exact h.apart a c haF hcF hne

theorem abuts_ne_base (h : Blocks base R ptr size F L) (hab : Abuts ptr size a) : a ≠ base := by
  rintro rfl
  have := h.base_size
  have := hab.1
  have := hab.2
  omega

theorem join (h : Blocks base R ptr size F L) (ha : a ∈ F) (hab : Abuts ptr size a) :
    Blocks base R (update ptr a (ptr (ptr a))) (update size a (size a + size (ptr a)))
      (F.erase (ptr a)) L := by
  have hane := h.abuts_ne_base hab
  obtain ⟨hlt, hend⟩ := hab
  have hq := h.circ.mem a ha
  have hqne : ptr a ≠ base := by
    have := h.base_le (.inl ha)
    omega
  have hH : ∀ c, Header (F.erase (ptr a)) L c → c ≠ ptr a ∧ Header F L c := by
    rintro c (hc | hc)
    · exact ⟨(mem_erase.mp hc).1, .inl (mem_erase.mp hc).2⟩
    · exact ⟨fun heq => h.not_live _ hq (heq ▸ hc), .inr hc⟩
  have hsize : ∀ c, c ≠ a → update size a (size a + size (ptr a)) c = size c :=
    fun c hc => update_of_ne hc _ _
  have hself : update size a (size a + size (ptr a)) a = size a + size (ptr a) :=
    update_self ..
  have happ : ∀ c, Header (F.erase (ptr a)) L c → c ≠ a →
      Apart (update size a (size a + size (ptr a))) a c := by
    intro c hc hca
    obtain ⟨hcq, hc⟩ := hH c hc
    have h1 := h.apart a c (.inl ha) hc (Ne.symm hca)
    have h2 := h.apart (ptr a) c (.inl hq) hc (Ne.symm hcq)
    simp only [Apart, hself, hsize c hca] at *
    omega
  refine ⟨h.bounded, h.circ.erase ha (by omega), mem_erase.mpr ⟨Ne.symm hqne, h.base_mem⟩, ?_,
    fun c hc => h.not_live c (mem_of_mem_erase hc), fun c hc hne => ?_, fun c e hc he hne => ?_⟩
  · rw [hsize base (Ne.symm hane)]
    exact h.base_size
  · by_cases hca : c = a
    · subst hca
      obtain ⟨hpos, hcov⟩ := h.block c (.inl ha) hane
      obtain ⟨-, hcov'⟩ := h.block _ (.inl hq) hqne
      rw [hself, Nat.mul_add]
      exact ⟨by omega, hcov.append (hend ▸ hcov')⟩
    · rw [hsize c hca]
      exact h.block c (hH c hc).2 hne
  · by_cases hca : c = a
    · subst hca
      exact happ e he (Ne.symm hne)
    by_cases hea : e = a
    · subst hea
      exact (happ c hc hne).symm
    · rw [Apart, hsize c hca, hsize e hea]
      exact h.apart c e (hH c hc).2 (hH e he).2 hne

theorem abuts_join (h : Blocks base R ptr size F L) (ha : a ∈ F) (hab : Abuts ptr size a) {c : Nat}
    (hc : Abuts (update ptr a (ptr (ptr a))) (update size a (size a + size (ptr a))) c) :
    c = a ∧ Abuts ptr size (ptr a) ∨ c ≠ a ∧ Abuts ptr size c := by
  by_cases hca : c = a
  · subst hca
    refine .inl ⟨rfl, ?_⟩
    have hbase := h.base_le (.inl ha)
    have hpos := (h.bounds (.inl (h.circ.mem c ha)) (by have := hab.1; omega)).1
    have hend := hab.2
    simp only [Abuts, update_self] at hc ⊢
    omega
  · simp only [Abuts, update_of_ne hca] at hc
    exact .inr ⟨hca, hc⟩

/-! ## Taking a block -/

theorem take (h : Blocks base R ptr size F L) (hp : p ∈ F) (hq : ptr p ≠ base) (hne : ptr p ≠ p) :
    Blocks base R (update ptr p (ptr (ptr p))) size (F.erase (ptr p)) fun x => x = ptr p ∨ L x := by
  have hH : ∀ c, Header (F.erase (ptr p)) (fun x => x = ptr p ∨ L x) c → Header F L c := by
    rintro c (hc | rfl | hc)
    · exact .inl (mem_of_mem_erase hc)
    · exact .inl (h.circ.mem p hp)
    · exact .inr hc
  refine ⟨h.bounded, h.circ.erase hp hne, mem_erase.mpr ⟨Ne.symm hq, h.base_mem⟩, h.base_size, ?_,
    fun a ha => h.block a (hH a ha), fun a b ha hb => h.apart a b (hH a ha) (hH b hb)⟩
  rintro a ha (rfl | hx)
  · exact (mem_erase.mp ha).1 rfl
  · exact h.not_live a (mem_of_mem_erase ha) hx

theorem tight_take (h : Blocks base R ptr size F L) (ht : Tight ptr size F) (hp : p ∈ F) (hq : ptr p ≠ base) :
    Tight (update ptr p (ptr (ptr p))) size (F.erase (ptr p)) := by
  intro c hc hab
  obtain ⟨-, hcF⟩ := mem_erase.mp hc
  have hqF := h.circ.mem p hp
  by_cases hcp : c = p
  · subst hcp
    simp only [Abuts, update_self] at hab
    have hpos := (h.bounds (.inl hqF) hq).1
    -- the block after `c` is above it, and so is the one after that
    rcases Nat.lt_or_ge c (ptr c) with hup | hwrap
    · have hle := h.sorted (.inl hcF) (.inl hqF) hup
      rcases Nat.lt_or_ge (ptr c) (ptr (ptr c)) with hup' | hwrap'
      · have := h.sorted (.inl hqF) (.inl (h.circ.mem _ hqF)) hup'
        omega
      · have := (h.circ.wrap _ hqF hwrap' c hcF).1
        omega
    · have h1 := (h.circ.wrap c hcF hwrap base h.base_mem).1
      have h2 := h.base_le (.inl hqF)
      omega
  · simp only [Abuts, update_of_ne hcp] at hab
    exact ht c hcF hab

theorem split (h : Blocks base R ptr size F L) (hp : p ∈ F) (hn : 0 < n) (hlt : n < size p) :
    Blocks base R ptr
      (update (update size p (size p - n)) (p + 8 * (size p - n)) n) F
      fun x => x = p + 8 * (size p - n) ∨ L x := by
  have hpb : p ≠ base := by
    rintro rfl
    have := h.base_size
    omega
  obtain ⟨-, hcov⟩ := h.block p (.inl hp) hpb
  obtain ⟨q, hq⟩ : ∃ q, q = p + 8 * (size p - n) := ⟨_, rfl⟩
  rw [← hq]
  have hqH : ∀ a, Header F L a → a ≠ q := by
    rintro a ha rfl
    have := h.apart p _ (.inl hp) ha (by omega)
    simp only [Apart] at this
    omega
  have hH : ∀ c, Header F (fun x => x = q ∨ L x) c → c = q ∨ Header F L c := by
    rintro c (hc | hc | hc)
    · exact .inr (.inl hc)
    · exact .inl hc
    · exact .inr (.inr hc)
  obtain ⟨size', hsize'⟩ : ∃ f, f = update (update size p (size p - n)) q n := ⟨_, rfl⟩
  rw [← hsize']
  have hsq : size' q = n := by rw [hsize', update_self]
  have hsp : size' p = size p - n := by
    rw [hsize', update_of_ne (hqH p (.inl hp)), update_self]
  have hold : ∀ a, a ≠ p → Header F L a → size' a = size a := by
    intro a hne ha
    rw [hsize', update_of_ne (hqH a ha), update_of_ne hne]
  have hle : ∀ a, Header F L a → size' a ≤ size a := by
    intro a ha
    by_cases hap : a = p
    · subst hap
      omega
    · exact Nat.le_of_eq (hold a hap ha)
  have hnew : ∀ a, Header F L a → Apart size' a q := by
    intro a ha
    by_cases hap : a = p
    · subst hap
      rw [Apart]
      omega
    · have := h.apart a p ha (.inl hp) hap
      rw [Apart] at this ⊢
      rw [hold a hap ha]
      omega
  refine ⟨h.bounded, h.circ, h.base_mem, ?_, ?_, fun a ha hne => ?_, fun a b ha hb hne => ?_⟩
  · rw [hold base (Ne.symm hpb) (.inl h.base_mem)]
    exact h.base_size
  · rintro a ha (rfl | hx)
    · exact hqH _ (.inl ha) rfl
    · exact h.not_live a ha hx
  · rcases hH a ha with rfl | ha
    · rw [hsq]
      exact ⟨hn, hcov.sub (by omega) (by omega)⟩
    by_cases hap : a = p
    · subst hap
      rw [hsp]
      exact ⟨by omega, hcov.sub (Nat.le_refl _) (by omega)⟩
    · rw [hold a hap ha]
      exact h.block a ha hne
  · rcases hH a ha with rfl | haF <;> rcases hH b hb with rfl | hbF
    · exact absurd rfl hne
    · exact (hnew b hbF).symm
    · exact hnew a haF
    · have h1 := h.apart a b haF hbF hne
      have h2 := hle a haF
      have h3 := hle b hbF
      simp only [Apart] at *
      omega

theorem tight_split (h : Blocks base R ptr size F L) (ht : Tight ptr size F) (hp : p ∈ F) (hn : 0 < n)
    (hlt : n < size p) :
    Tight ptr (update (update size p (size p - n)) (p + 8 * (size p - n)) n) F := by
  intro c hc hab
  have hne : c ≠ p + 8 * (size p - n) := by
    rintro rfl
    have := h.apart p _ (.inl hp) (.inl hc) (by omega)
    simp only [Apart] at this
    omega
  by_cases hcp : c = p
  · subst hcp
    simp only [Abuts, update_of_ne hne, update_self] at hab
    have := h.sorted (.inl hc) (.inl (h.circ.mem c hc)) hab.1
    omega
  · simp only [Abuts, update_of_ne hne, update_of_ne hcp] at hab
    exact ht c hc hab

end Blocks

end Xv6.Umalloc
