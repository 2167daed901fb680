import Xv6.Sys.Wild

/-!
# `copyout` in the argument phase

`uva2ka` uses the result of `walkpgdir` without a look whether it is null. A strict `copyout` stops
there. For strings that reach down to device memory at most, it has the same result.
-/

open Xv6.Cmd Xv6.Pool Xv6.Run Xv6.Vm Function List

namespace Xv6.Sys

variable {ld : Linker} {d d' : PgDir} {m m' : Machine} {i : Fin NPROC} {p : Proc} {sz : Nat}

/-! ## A `copyout` that stops at a null pointer -/

/-- `uva2ka`, which stops when `walkpgdir` finds no table. -/
def strictUva2ka (d : PgDir) (uva : Nat) : M (Option Nat) :=
  if (d.tab (pdx uva)).isSome then pure (Pte.ka (d.get uva)) else throw .fault

/-- The loop of `copyout`, for any way to look a page up. -/
def copyLoopBy (look : PgDir → Nat → M (Option Nat)) (ld : Linker) :
    Nat → PgDir → Nat → List UInt8 → M (PgDir × Bool)
  | 0, d, _, _ => pure (d, true)
  | n + 1, d, va, buf =>
    if buf.length = 0 then pure (d, true)
    else do
      let va0 := pgrounddown va
      match ← look d va0 with
      | none => pure (d, false)
      | some q => do
        let len := if buf.length < PGSIZE - (va - va0) then buf.length else PGSIZE - (va - va0)
        let d ← poke ld d q (va - va0) (buf.take len)
        copyLoopBy look ld n d (u32 (va0 + PGSIZE)) (buf.drop len)

/-- Every one of the `n` addresses from `va` on is in a present `PTE_U` page. -/
def UserRange (d : PgDir) (va n : Nat) : Prop :=
  ∀ k < n, (d.get (u32 (va + k))).present = true ∧ (d.get (u32 (va + k))).user = true

instance (d : PgDir) (va n : Nat) : Decidable (UserRange d va n) :=
  inferInstanceAs (Decidable (∀ k < n, _))

/-- `copyout`, which stops at a null pointer, and when it has written outside the user's pages. -/
def strictCopyout (ld : Linker) (d : PgDir) (va : Nat) (buf : List UInt8) : M (PgDir × Bool) := do
  let r ← copyLoopBy strictUva2ka ld buf.length d va buf
  if r.2 = true ∧ ¬ UserRange d va buf.length then throw .wild else pure r

/-- `exec`'s loop over `argv`, for any `copyout`. -/
def pushArgsBy (out : PgDir → Nat → List UInt8 → M (PgDir × Bool)) :
    List (List UInt8) → PgDir → Nat → List Nat → M (PgDir × Option (Nat × List Nat))
  | [], d, sp, ustack => pure (d, some (sp, ustack))
  | arg :: argv, d, sp, ustack =>
    if MAXARG ≤ ustack.length then pure (d, none)
    else do
      let sp := sub32 sp (arg.length + 1) / 4 * 4
      let (d, ok) ← out d sp (arg ++ [0])
      if ok then pushArgsBy out argv d sp (ustack ++ [sp]) else pure (d, none)

/-- The words of `ustack`, when the strings are at `ptrs` and end at `sp`. -/
def ustackWords (sp : Nat) (ptrs : List Nat) : List Nat :=
  [0xffffffff, ptrs.length, sub32 sp ((ptrs.length + 1) * 4)] ++ ptrs ++ [0]

/-- Where `ustack` goes. It is the new `esp`. -/
def ustackAddr (sp : Nat) (ptrs : List Nat) : Nat := sub32 sp ((3 + ptrs.length + 1) * 4)

def pushStackBy (out : PgDir → Nat → List UInt8 → M (PgDir × Bool)) (argv : List (List UInt8)) (d : PgDir)
    (sz : Nat) : M (PgDir × Bool) := do
  let (d, r) ← pushArgsBy out argv d sz []
  match r with
  | none => pure (d, false)
  | some (sp, ptrs) => out d (ustackAddr sp ptrs) ((ustackWords sp ptrs).flatMap wordBytes)

theorem pushArgsBy_copyout (argv : List (List UInt8)) (d : PgDir) (sp : Nat) (ustack : List Nat) :
    pushArgsBy (copyout ld i) argv d sp ustack = pushArgs ld i argv d sp ustack := by
  induction argv generalizing d sp ustack with
  | nil => rfl
  | cons arg argv ih =>
    unfold pushArgsBy pushArgs
    simp only [ih]

theorem pushStackBy_copyout (argv : List (List UInt8)) (d : PgDir) (sz : Nat) :
    pushStackBy (copyout ld i) argv d sz = pushStack ld i argv d sz := by
  unfold pushStackBy pushStack
  simp only [pushArgsBy_copyout]
  rfl

/-! ## One page -/

theorem not_kernelData {q : Nat} (hm : Managed ld q) (hf : q ∉ m.phys.freelist) (ho : m.own q = 0)
    (hd : q ≠ d.page) : ¬ m.KernelData ld d q := by
  have hown : ¬ m.KernelUse q := fun hu => by
    have := (own_pos_iff m q).mpr hu
    omega
  rintro (hc | hc | hst | hk | hk | hpp | ⟨k, pk, hpk, hkk⟩)
  · exact (managed_iff ld q).mpr hm hc
  · exact hf hc
  · exact hown (.inr (.inl hst))
  · exact hown (.inl (.inl hk.symm))
  · exact hd hk
  · exact hown (.inr (.inr (.inl hpp)))
  · exact hown (.inr (.inr (.inr ⟨k, pk, hpk, hkk.imp_right fun h => .inl h⟩)))

theorem Building.not_kernelData {va : Nat} (h : Building ld m d sz) (hva : va < KERNBASE)
    (hp : (d.get va).present = true) : ¬ m.KernelData ld d (d.get va).ppn := by
  have hpos := PgDir.userRefs_pos hp hva
  have hex := h.acct.excl (d.get va).ppn
  simp only [Pi.add_apply] at hex
  refine Sys.not_kernelData (h.acct.inDom _ ?_) (fun hf => ?_) (by omega) fun hd => ?_
  · simp only [Pi.add_apply]
    omega
  · have := ((h.acct.mem _).mp hf).2
    simp only [Pi.add_apply] at this
    omega
  · have := (kernRefs_pos_iff d _).mpr (.inl hd.symm)
    omega

theorem Building.poke_runs {va : Nat} (h : Building ld m d sz) (hva : va < KERNBASE)
    (hp : (d.get va).present = true) (off : Nat) (bs : List UInt8) :
    Sys.poke ld d (d.get va).ppn off bs m =
      .ok (pokeDir (d.get va).ppn off bs d, m.poked (d.get va).ppn off bs) := by
  unfold Sys.poke
  rw [if_neg (h.not_kernelData hva hp)]
  rfl

theorem Building.page_inj {a b : Nat} (h : Building ld m d sz) (ha : a < sz) (hb : b < sz)
    (heq : (d.get a).ppn = (d.get b).ppn) : a / PGSIZE = b / PGSIZE := by
  have hle := h.image.sz_le
  have hfull : ∀ a < sz, (d.get a).present = true := fun a ha =>
    h.image.full a (Nat.lt_of_le_of_lt (Nat.div_mul_le_self a PGSIZE) ha)
  by_contra hne
  have htwo := PgDir.two_le_userRefs (hfull b hb) (by omega) (hfull a ha) (by omega) heq (Ne.symm hne)
  have hone := (h.image.priv b (by omega) (hfull b hb)).1
  omega

theorem Building.byte_poke {va a : Nat} {bs : List UInt8} (h : Building ld m d sz) (hva : va < sz)
    (ha : a < sz) (hin : va % PGSIZE + bs.length ≤ PGSIZE) (hsame : ∀ b, d'.get b = d.get b) :
    Phys.byte (m.poked (d.get va).ppn (va % PGSIZE) bs).phys d' a =
      if va ≤ a ∧ a < va + bs.length then bs.getD (a - va) 0 else Phys.byte m.phys d a := by
  unfold Phys.byte Machine.poked Phys.setMem
  dsimp only
  rw [hsame]
  by_cases hpg : (d.get a).ppn = (d.get va).ppn
  · have hpage := h.page_inj ha hva hpg
    rw [hpg, update_self, writeBytes]
    have hiff : (va % PGSIZE ≤ a % PGSIZE ∧ a % PGSIZE < va % PGSIZE + bs.length) ↔
        (va ≤ a ∧ a < va + bs.length) := by
      simp only [PGSIZE] at *
      omega
    simp only [hiff]
    have hsub : a % PGSIZE - va % PGSIZE = a - va := by
      simp only [PGSIZE] at *
      omega
    rw [hsub]
  · rw [update_of_ne hpg, if_neg]
    rintro ⟨h1, h2⟩
    refine hpg ?_
    rw [← PgDir.get_page d a, ← PgDir.get_page d va]
    have hpage : a / PGSIZE = va / PGSIZE := by
      simp only [PGSIZE] at *
      omega
    rw [hpage]

/-! ## The loop -/

/-- What writes to the image `d` of `sz` bytes leave as it was. -/
structure Stays (ld : Linker) (sz : Nat) (m : Machine) (d : PgDir) (m' : Machine) (d' : PgDir) : Prop where
  building : Building ld m' d' sz
  written : Written m d m' d'
  free : m'.phys.freelist = m.phys.freelist ∧ m'.phys.refc_cnt = m.phys.refc_cnt
  mem : ∀ q, d.userRefs q = 0 → m'.phys.mem q = m.phys.mem q
  refs : ∀ q, m'.own q = m.own q ∧ m'.shared q = m.shared q

theorem Stays.refl (h : Building ld m d sz) : Stays ld sz m d m d :=
  ⟨h, .refl _ _, ⟨rfl, rfl⟩, fun _ _ => rfl, fun _ => ⟨rfl, rfl⟩⟩

theorem SameMaps.userRefs_zero {q : Nat} (h : SameMaps m d m' d') (hq : d.userRefs q = 0) :
    d'.userRefs q = 0 := by
  by_contra hc
  obtain ⟨b, hb, hpr, rfl⟩ := exists_of_userRefs_pos (Nat.pos_of_ne_zero hc)
  rw [h.image] at hpr hq
  have := PgDir.userRefs_pos hpr hb
  omega

theorem Stays.trans {m1 : Machine} {d1 : PgDir} (h : Stays ld sz m d m1 d1) (h' : Stays ld sz m1 d1 m' d') :
    Stays ld sz m d m' d' where
  building := h'.building
  written := h.written.trans h'.written
  free := ⟨h'.free.1.trans h.free.1, h'.free.2.trans h.free.2⟩
  mem q hq := (h'.mem q (h.written.maps.userRefs_zero hq)).trans (h.mem q hq)
  refs q := ⟨(h'.refs q).1.trans (h.refs q).1, (h'.refs q).2.trans (h.refs q).2⟩

theorem Building.stays {va : Nat} (h : Building ld m d sz) (hva : va < KERNBASE)
    (hp : (d.get va).present = true) (off : Nat) (bs : List UInt8) :
    Stays ld sz m d (m.poked (d.get va).ppn off bs) (pokeDir (d.get va).ppn off bs d) := by
  obtain ⟨h1, hw⟩ := h.poke hva hp (h.poke_runs hva hp off bs)
  have hpos := PgDir.userRefs_pos hp hva
  have hown : m.own (d.get va).ppn = 0 := by
    have := h.acct.excl (d.get va).ppn
    simp only [Pi.add_apply] at this
    omega
  refine ⟨h1, hw, ⟨rfl, rfl⟩, fun q hq => update_of_ne ?_ _ _,
    fun q => ⟨poked_own hown q, poked_shared hown q⟩⟩
  rintro rfl
  omega

/-- `copyout` of `buf` to `va` in the image `d` of `sz` bytes, with the result `ok`. -/
structure Copied (ld : Linker) (sz : Nat) (m : Machine) (d : PgDir) (va : Nat) (buf : List UInt8)
    (m' : Machine) (d' : PgDir) (ok : Bool) : Prop extends Stays ld sz m d m' d' where
  out : ∀ a < sz, a < va ∨ va + buf.length ≤ a → Phys.byte m'.phys d' a = Phys.byte m.phys d a
  done : ok = true → UserRange d va buf.length ∧
    ∀ k < buf.length, Phys.byte m'.phys d' (va + k) = buf.getD k 0
  runs : UserRange d va buf.length → ok = true

theorem copied_nil (h : Building ld m d sz) (va : Nat) : Copied ld sz m d va [] m d true :=
  ⟨.refl h, fun _ _ _ => rfl, fun _ => ⟨nofun, nofun⟩, fun _ => rfl⟩

theorem copied_fail {va : Nat} {buf : List UInt8} (h : Building ld m d sz)
    (hnot : ¬ UserRange d va buf.length) : Copied ld sz m d va buf m d false :=
  ⟨.refl h, fun _ _ _ => rfl, nofun, fun hc => absurd hc hnot⟩

theorem Copied.cons {va len next : Nat} {buf : List UInt8} {m2 : Machine} {d2 : PgDir} {ok : Bool}
    (h : Building ld m d sz) (hle : va + buf.length ≤ sz) (hlen : len ≤ buf.length)
    (hin : va % PGSIZE + len ≤ PGSIZE) (huser : (d.get va).present = true ∧ (d.get va).user = true)
    (hnext : buf.length = len ∨ next = va + len)
    (hst : Stays ld sz m d (m.poked (d.get va).ppn (va % PGSIZE) (buf.take len)) d')
    (hrest : Copied ld sz (m.poked (d.get va).ppn (va % PGSIZE) (buf.take len)) d' next (buf.drop len) m2 d2 ok)
    (hpos : 0 < len) : Copied ld sz m d va buf m2 d2 ok := by
  have hsame := hst.written.maps.image
  have hsz := h.image.sz_le
  have htake : (buf.take len).length = len := by simpa using hlen
  have hdrop : (buf.drop len).length = buf.length - len := length_drop
  have hpoke : ∀ a < sz, Phys.byte (m.poked (d.get va).ppn (va % PGSIZE) (buf.take len)).phys d' a =
      if va ≤ a ∧ a < va + len then (buf.take len).getD (a - va) 0 else Phys.byte m.phys d a := by
    intro a ha
    rw [h.byte_poke (by omega) ha (by rw [htake]; exact hin) hsame, htake]
  have hpage : ∀ k < len, d.get (u32 (va + k)) = d.get va := by
    intro k hk
    rw [u32_of_lt (by simp only [KERNBASE] at hsz; omega), ← PgDir.get_page d (va + k), ← PgDir.get_page d va]
    have : (va + k) / PGSIZE = va / PGSIZE := by
      simp only [PGSIZE] at *
      omega
    rw [this]
  -- The range splits at the end of the page.
  have hsplit : UserRange d va buf.length ↔ UserRange d' next (buf.drop len).length := by
    constructor
    · intro hr k hk
      rw [hdrop] at hk
      rw [hsame, hnext.resolve_left (by omega), Nat.add_assoc]
      exact hr (len + k) (by omega)
    · intro hr k hk
      by_cases hkl : k < len
      · rw [hpage k hkl]
        exact huser
      · have := hr (k - len) (by rw [hdrop]; omega)
        rwa [hsame, hnext.resolve_left (by omega), show va + len + (k - len) = va + k by omega] at this
  have hrout : ∀ a, a < va + len ∨ va + buf.length ≤ a → a < next ∨ next + (buf.drop len).length ≤ a := by
    intro a ha
    rw [hdrop]
    rcases hnext with hn | hn
    · omega
    · omega
  refine ⟨hst.trans hrest.toStays, fun a ha hout => ?_, fun hok => ?_, ?_⟩
  · rw [hrest.out a ha (hrout a (by omega)), hpoke a ha, if_neg (by omega)]
  · obtain ⟨hr, hbytes⟩ := hrest.done hok
    refine ⟨hsplit.mpr hr, fun k hk => ?_⟩
    by_cases hkl : k < len
    · rw [hrest.out _ (by omega) (hrout _ (by omega)), hpoke _ (by omega), if_pos (by omega),
        Nat.add_sub_cancel_left, getD_eq_getElem?_getD, List.getElem?_take_of_lt hkl,
        ← getD_eq_getElem?_getD]
    · have := hbytes (k - len) (by rw [hdrop]; omega)
      rw [hnext.resolve_left (by omega), show va + len + (k - len) = va + k by omega] at this
      rw [this, getD_eq_getElem?_getD, List.getElem?_drop, show len + (k - len) = k by omega,
        ← getD_eq_getElem?_getD]
  · exact fun hr => hrest.runs (hsplit.mp hr)

theorem pgrounddown_eq (va : Nat) : pgrounddown va = va - va % PGSIZE := by
  simp only [pgrounddown, PGSIZE]
  omega

theorem get_pgrounddown (d : PgDir) (va : Nat) : d.get (pgrounddown va) = d.get va := by
  rw [← PgDir.get_page d (pgrounddown va), pgrounddown_page, ← PgDir.get_page d va]
  rfl

theorem strictUva2ka_of_tab {uva : Nat} (h : d.HasTab uva) :
    strictUva2ka d uva m = .ok (Pte.ka (d.get uva), m) := by
  have htab : (d.tab (pdx uva)).isSome = true := h
  rw [strictUva2ka, if_pos htab]
  rfl

theorem Pte.ka_user {e : Pte} {q : Nat} (h : Pte.ka e = some q) : e.present = true ∧ e.user = true := by
  unfold Pte.ka at h
  split at h
  · next hp => exact hp
  · cases h

theorem copyLoop_spec {n va : Nat} {buf : List UInt8} (i : Fin NPROC) (h : Building ld m d sz)
    (hin : buf = [] ∨ va + buf.length ≤ sz) (hn : buf.length ≤ n) :
    ∃ d' ok m', copyLoopBy strictUva2ka ld n d va buf m = .ok ((d', ok), m') ∧
      copyLoop ld i n d va buf m = .ok ((d', ok), m') ∧ Copied ld sz m d va buf m' d' ok := by
  induction n generalizing m d va buf with
  | zero =>
    obtain rfl := length_eq_zero_iff.mp (Nat.le_zero.mp hn)
    exact ⟨d, true, m, rfl, rfl, copied_nil h va⟩
  | succ n ih =>
    unfold copyLoopBy copyLoop
    split
    · next hlen =>
      obtain rfl := length_eq_zero_iff.mp hlen
      exact ⟨d, true, m, rfl, rfl, copied_nil h va⟩
    · next hlen =>
      have hle := h.image.sz_le
      have hva : va + buf.length ≤ sz := hin.resolve_left fun hc => hlen (by simp [hc])
      have hdown : pgrounddown va ≤ va := by
        simp only [pgrounddown, PGSIZE]
        omega
      have htab := h.image.tabs (pgrounddown va) (by rw [pgrounddown_page]; omega)
      rw [bind_of_ok (strictUva2ka_of_tab htab), bind_of_ok (uva2ka_of_tab htab), get_pgrounddown]
      cases hq : Pte.ka (d.get va) with
      | none =>
        refine ⟨d, false, m, rfl, rfl, copied_fail h fun hr => ?_⟩
        have huser := hr 0 (by omega)
        rw [Nat.add_zero, u32_of_lt (by simp only [KERNBASE] at hle; omega)] at huser
        simp [Pte.ka, huser] at hq
      | some q =>
        obtain ⟨hp, rfl⟩ := Pte.ka_some hq
        have hoff : va - pgrounddown va = va % PGSIZE := by
          rw [pgrounddown_eq]
          have := Nat.mod_le va PGSIZE
          omega
        have hmod : va % PGSIZE < PGSIZE := Nat.mod_lt _ (by decide)
        obtain ⟨len, hlen'⟩ : ∃ len, len = if buf.length < PGSIZE - va % PGSIZE then buf.length
          else PGSIZE - va % PGSIZE := ⟨_, rfl⟩
        dsimp only
        rw [hoff, ← hlen', bind_of_ok (h.poke_runs (by omega) hp _ _), bind_of_ok (h.poke_runs (by omega) hp _ _)]
        have hlen1 : len ≤ buf.length ∧ va % PGSIZE + len ≤ PGSIZE ∧ 0 < len := by
          split at hlen' <;> omega
        have hst := h.stays (by omega) hp (va % PGSIZE) (buf.take len)
        -- Either the buffer ends in this page or the next round starts at the next page.
        have hnext : buf.length = len ∨ u32 (pgrounddown va + PGSIZE) = va + len := by
          split at hlen'
          · exact .inl hlen'.symm
          · right
            rw [u32_of_lt (by simp only [KERNBASE, PGSIZE] at *; omega), pgrounddown_eq]
            have := Nat.mod_le va PGSIZE
            omega
        have hin2 : buf.drop len = [] ∨ u32 (pgrounddown va + PGSIZE) + (buf.drop len).length ≤ sz := by
          rcases hnext with hn | hn
          · exact .inl (by simp [hn])
          · right
            rw [hn, length_drop]
            omega
        obtain ⟨d2, ok, m2, hs, hc, hcopied⟩ := ih hst.building hin2 (by rw [length_drop]; omega)
        exact ⟨d2, ok, m2, hs, hc,
          .cons h hva hlen1.1 hlen1.2.1 (Pte.ka_user hq) hnext hst hcopied hlen1.2.2⟩

theorem devspace_not_user {va : Nat} (h : KernelMap ld d) (hva : DEVSPACE ≤ va) (hlt : va < 0x100000000) :
    d.HasTab va ∧ (d.get va).user = false := by
  have hget : d.get va = ⟨va / PGSIZE, true, true, false⟩ := by
    rw [h va hlt (by simp only [DEVSPACE, KERNBASE] at *; omega), kernelPte,
      if_neg (by simp only [KERNBASE, PHYSTOP, DEVSPACE] at *; omega), if_pos hva]
  exact ⟨PgDir.hasTab_of_present (by rw [hget]), by rw [hget]⟩

theorem strictLoop_devspace {n va : Nat} {buf : List UInt8} (h : KernelMap ld d) (hva : DEVSPACE ≤ va)
    (hlt : va < 0x100000000) (hbuf : buf ≠ []) :
    copyLoopBy strictUva2ka ld (n + 1) d va buf m = .ok ((d, false), m) := by
  have hdown : DEVSPACE ≤ pgrounddown va := by
    simp only [pgrounddown, DEVSPACE, PGSIZE] at *
    omega
  obtain ⟨htab, huser⟩ := devspace_not_user h hdown (by simp only [pgrounddown, PGSIZE] at *; omega)
  rw [copyLoopBy, if_neg (by simpa using hbuf), bind_of_ok (strictUva2ka_of_tab htab)]
  simp [Pte.ka, huser]

theorem copyout_spec {va sp : Nat} {buf : List UInt8} (i : Fin NPROC) (h : Building ld m d sz) (hsp : sp ≤ sz)
    (hbuf : buf ≠ []) (hva : va + buf.length ≤ sp ∨ DEVSPACE ≤ va ∧ va < 0x100000000) :
    ∃ d' ok m', strictCopyout ld d va buf m = .ok ((d', ok), m') ∧
      copyout ld i d va buf m = .ok ((d', ok), m') ∧ Copied ld sz m d va buf m' d' ok ∧
      (ok = true → va + buf.length ≤ sp) := by
  rcases hva with hlow | ⟨hdev, hlt⟩
  · have hin : buf = [] ∨ va + buf.length ≤ sz := .inr (by omega)
    obtain ⟨d', ok, m', hs, hc, hcopied⟩ := copyLoop_spec i h hin (Nat.le_refl _)
    refine ⟨d', ok, m', ?_, hc, hcopied, fun _ => hlow⟩
    rw [strictCopyout, bind_of_ok hs, if_neg]
    · rfl
    · rintro ⟨hok, hnot⟩
      exact hnot (hcopied.done hok).1
  · have hk := h.image.kmap
    have hnot : ¬ UserRange d va buf.length := fun hr => by
      have huser := (hr 0 (length_pos_iff.mpr hbuf)).2
      rw [Nat.add_zero, u32_of_lt hlt, (devspace_not_user hk hdev hlt).2] at huser
      cases huser
    refine ⟨d, false, m, ?_, copyout_devspace hk hdev hlt hbuf, copied_fail h hnot, nofun⟩
    obtain ⟨b, bs, rfl⟩ := exists_cons_of_ne_nil hbuf
    rw [strictCopyout, length_cons, bind_of_ok (strictLoop_devspace hk hdev hlt hbuf), if_neg (by simp)]
    rfl

/-! ## The arguments -/

/-- Where `exec` puts a string when the stack pointer is `sp`. -/
def stringAddr (sp : Nat) (arg : List UInt8) : Nat := sub32 sp (arg.length + 1) / 4 * 4

/-- The addresses of the strings. -/
def stringAddrs (sp : Nat) : List (List UInt8) → List Nat
  | [] => []
  | arg :: argv => stringAddr sp arg :: stringAddrs (stringAddr sp arg) argv

/-- The stack pointer after the strings. -/
def stringsEnd (sp : Nat) : List (List UInt8) → Nat
  | [] => sp
  | arg :: argv => stringsEnd (stringAddr sp arg) argv

/-- The room that the strings take. -/
def stringsSize : List (List UInt8) → Nat
  | [] => 0
  | arg :: argv => (arg.length + 1 + 3) / 4 * 4 + stringsSize argv

/-- The strings are in place below `sp`, each one in pages of the user. -/
def Strings (d : PgDir) (read : Nat → UInt8) (sp : Nat) : List (List UInt8) → Prop
  | [] => True
  | arg :: argv =>
    stringAddr sp arg + arg.length + 1 ≤ sp ∧ UserRange d (stringAddr sp arg) (arg.length + 1) ∧
    (∀ k < arg.length + 1, read (stringAddr sp arg + k) = (arg ++ [0]).getD k 0) ∧
    Strings d read (stringAddr sp arg) argv

theorem stringAddr_cases {sp : Nat} {arg : List UInt8} (hsp : sp ≤ KERNBASE)
    (hshort : arg.length + 4 ≤ 0x2000000) :
    stringAddr sp arg + (arg ++ [0]).length ≤ sp ∨
      DEVSPACE ≤ stringAddr sp arg ∧ stringAddr sp arg < 0x100000000 := by
  simp only [stringAddr, length_append, length_singleton, sub32, u32, KERNBASE, DEVSPACE] at *
  omega

theorem Strings.end_le {read : Nat → UInt8} {argv : List (List UInt8)} {sp : Nat}
    (h : Strings d read sp argv) : stringsEnd sp argv ≤ sp := by
  induction argv generalizing sp with
  | nil => exact Nat.le_refl _
  | cons arg argv ih =>
    obtain ⟨hle, -, -, hrest⟩ := h
    have := ih hrest
    simp only [stringsEnd]
    omega

theorem Strings.congr {read read' : Nat → UInt8} {argv : List (List UInt8)} {sp : Nat}
    (hd : ∀ va, d'.get va = d.get va) (h : Strings d read sp argv)
    (hread : ∀ a, stringsEnd sp argv ≤ a → a < sp → read' a = read a) : Strings d' read' sp argv := by
  induction argv generalizing sp with
  | nil => trivial
  | cons arg argv ih =>
    obtain ⟨hle, hu, hb, hrest⟩ := h
    have hend := hrest.end_le
    simp only [stringsEnd] at hread
    refine ⟨hle, fun k hk => ?_, fun k hk => ?_, ih hrest fun a h1 h2 => hread a h1 (by omega)⟩
    · rw [hd]
      exact hu k hk
    · rw [hread _ (by omega) (by omega)]
      exact hb k hk

theorem pushArgs_spec {sp : Nat} (i : Fin NPROC) (argv : List (List UInt8)) (ustack : List Nat)
    (h : Building ld m d sz) (hsp : sp ≤ sz) (hshort : ∀ arg ∈ argv, arg.length + 4 ≤ 0x2000000) :
    ∃ d' r m', pushArgsBy (strictCopyout ld) argv d sp ustack m = .ok ((d', r), m') ∧
      pushArgs ld i argv d sp ustack m = .ok ((d', r), m') ∧ Stays ld sz m d m' d' ∧
      (∀ sp' l, r = some (sp', l) → sp' = stringsEnd sp argv ∧ l = ustack ++ stringAddrs sp argv ∧
        (ustack.length ≤ MAXARG → l.length ≤ MAXARG) ∧ sp' ≤ sp ∧
        Strings d (Phys.byte m'.phys d') sp argv ∧
        ∀ a < sz, a < sp' ∨ sp ≤ a → Phys.byte m'.phys d' a = Phys.byte m.phys d a) ∧
      (∀ base, UserRange d base (sz - base) → base + stringsSize argv ≤ sp → sp % 4 = 0 →
        ustack.length + argv.length ≤ MAXARG → r.isSome) := by
  induction argv generalizing m d sp ustack with
  | nil =>
    refine ⟨d, some (sp, ustack), m, rfl, rfl, .refl h, fun sp' l hl => ?_, fun _ _ _ _ _ => rfl⟩
    obtain ⟨rfl, rfl⟩ := Prod.mk.inj (Option.some.inj hl)
    exact ⟨rfl, by simp [stringAddrs], id, Nat.le_refl _, trivial, fun _ _ _ => rfl⟩
  | cons arg argv ih =>
    unfold pushArgsBy pushArgs
    split
    · exact ⟨d, none, m, rfl, rfl, .refl h, (fun _ _ hc => by cases hc), fun _ _ _ _ hl => by
        rw [length_cons] at hl
        omega⟩
    next hmax =>
    obtain ⟨d1, ok, m1, hs, hc, hcopied, hlow⟩ := copyout_spec i h hsp (by simp : arg ++ [0] ≠ [])
      (stringAddr_cases (Nat.le_trans hsp h.image.sz_le) (hshort arg (by simp)))
    change ∃ d' r m', (strictCopyout ld d (stringAddr sp arg) (arg ++ [0]) >>= _) m = _ ∧
      (copyout ld i d (stringAddr sp arg) (arg ++ [0]) >>= _) m = _ ∧ _
    rw [bind_of_ok hs, bind_of_ok hc]
    -- Below `sp` there is room for the string when all strings fit.
    have hfit : ∀ base, base + stringsSize (arg :: argv) ≤ sp → sp % 4 = 0 →
        base ≤ stringAddr sp arg ∧ base + stringsSize argv ≤ stringAddr sp arg ∧
        stringAddr sp arg % 4 = 0 ∧ stringAddr sp arg + arg.length + 1 ≤ sp := by
      intro base hb hal
      have hsz := h.image.sz_le
      simp only [stringsSize, stringAddr, sub32, u32, KERNBASE] at *
      omega
    cases ok with
    | false =>
      refine ⟨d1, none, m1, rfl, rfl, hcopied.toStays, (fun _ _ hc => by cases hc), fun base hu hb hal _ => ?_⟩
      obtain ⟨h1, -, -, h4⟩ := hfit base hb hal
      have hrange : UserRange d (stringAddr sp arg) (arg ++ [0]).length := by
        intro k hk
        rw [length_append, length_singleton] at hk
        have := hu (stringAddr sp arg - base + k) (by omega)
        rwa [show base + (stringAddr sp arg - base + k) = stringAddr sp arg + k by omega] at this
      exact absurd (hcopied.runs hrange) (by decide)
    | true =>
      have hle := hlow rfl
      rw [length_append, length_singleton] at hle
      have hsp1 : stringAddr sp arg ≤ sz := by omega
      have hget := hcopied.written.maps.image
      obtain ⟨d2, r, m2, hs2, hc2, hst2, hr, hrun⟩ := ih (ustack ++ [stringAddr sp arg]) hcopied.building hsp1
        (fun a ha => hshort a (by simp [ha]))
      refine ⟨d2, r, m2, hs2, hc2, hcopied.toStays.trans hst2, fun sp' l hl => ?_, fun base hu hb hal hl => ?_⟩
      · obtain ⟨h1, h2, h3, h4, h5, h6⟩ := hr sp' l hl
        obtain ⟨hu, hbytes⟩ := hcopied.done rfl
        refine ⟨h1, by rw [h2]; simp [stringAddrs], fun _ => h3 (by simp; omega), by omega,
          ⟨by omega, ?_, ?_, ?_⟩, fun a ha hout => ?_⟩
        · simpa using hu
        · intro k hk
          rw [h6 _ (by omega) (.inr (by omega))]
          exact hbytes k (by simpa using hk)
        · exact h5.congr (fun va => (hget va).symm) fun _ _ _ => rfl
        · rw [h6 a ha (by omega)]
          exact hcopied.out a ha (by simp only [length_append, length_singleton]; omega)
      · obtain ⟨-, h2, h3, -⟩ := hfit base hb hal
        refine hrun base (fun k hk => ?_) h2 h3 (by simp at hl ⊢; omega)
        rw [hget]
        exact hu k hk

theorem stringsEnd_add {argv : List (List UInt8)} {sp : Nat} (hsp : sp ≤ KERNBASE)
    (hle : stringsSize argv ≤ sp) (hal : sp % 4 = 0) : stringsEnd sp argv + stringsSize argv = sp := by
  induction argv generalizing sp with
  | nil => rfl
  | cons arg argv ih =>
    have haddr : stringAddr sp arg = sp - (arg.length + 1 + 3) / 4 * 4 := by
      simp only [stringsSize, stringAddr, sub32, u32, KERNBASE] at *
      omega
    simp only [stringsSize, stringsEnd] at *
    have hrest : stringsSize argv ≤ stringAddr sp arg := by omega
    have := ih (by omega) hrest (by omega)
    omega

theorem stringAddrs_length (argv : List (List UInt8)) (sp : Nat) :
    (stringAddrs sp argv).length = argv.length := by
  induction argv generalizing sp with
  | nil => rfl
  | cons arg argv ih => simp [stringAddrs, ih]

/-- The `esp` that the process starts with. -/
def espOf (sz : Nat) (argv : List (List UInt8)) : Nat := ustackAddr (stringsEnd sz argv) (stringAddrs sz argv)

/-- The bytes of `ustack`. -/
def ustackBytes (sz : Nat) (argv : List (List UInt8)) : List UInt8 :=
  (ustackWords (stringsEnd sz argv) (stringAddrs sz argv)).flatMap wordBytes

theorem ustackBytes_length (sz : Nat) (argv : List (List UInt8)) :
    (ustackBytes sz argv).length = 4 * (4 + argv.length) := by
  rw [ustackBytes, flatMap_wordBytes_length]
  simp [ustackWords, stringAddrs_length]
  omega

/-- The strings and `ustack` are in place below the end of the image. -/
structure Pushed (d : PgDir) (read : Nat → UInt8) (sz : Nat) (argv : List (List UInt8)) : Prop where
  strings : Strings d read sz argv
  room : espOf sz argv + 4 * (4 + argv.length) ≤ stringsEnd sz argv
  user : UserRange d (espOf sz argv) (4 * (4 + argv.length))
  words : ∀ k < 4 * (4 + argv.length), read (espOf sz argv + k) = (ustackBytes sz argv).getD k 0

theorem pushStack_spec {argv : List (List UInt8)} (i : Fin NPROC) (h : Building ld m d sz)
    (hshort : ∀ arg ∈ argv, arg.length + 4 ≤ 0x2000000) :
    ∃ d' ok m', pushStackBy (strictCopyout ld) argv d sz m = .ok ((d', ok), m') ∧
      pushStack ld i argv d sz m = .ok ((d', ok), m') ∧ Stays ld sz m d m' d' ∧
      (ok = true → Pushed d (Phys.byte m'.phys d') sz argv ∧
        ∀ a < sz, a < espOf sz argv → Phys.byte m'.phys d' a = Phys.byte m.phys d a) ∧
      ∀ base, UserRange d base (sz - base) → base + stringsSize argv + 4 * (4 + argv.length) ≤ sz →
        sz % 4 = 0 → argv.length ≤ MAXARG → ok = true := by
  obtain ⟨d1, r, m1, hs, hc, hst, hr, hrun⟩ := pushArgs_spec i argv [] h (Nat.le_refl sz) hshort
  unfold pushStackBy pushStack
  rw [bind_of_ok hs, bind_of_ok hc]
  cases r with
  | none =>
    refine ⟨d1, false, m1, rfl, rfl, hst, nofun, fun base hu hb hal hmax => ?_⟩
    exact absurd (hrun base hu (by omega) hal (by simpa using hmax)) (by decide)
  | some x =>
    obtain ⟨sp, ptrs⟩ := x
    obtain ⟨hsp, hptrs, hmax, hle, hstr, hout⟩ := hr sp ptrs rfl
    rw [nil_append] at hptrs
    have hsz := hst.building.image.sz_le
    have hlen : (ustackBytes sz argv).length = 4 * (4 + argv.length) := ustackBytes_length sz argv
    have hargc : argv.length ≤ MAXARG := by
      have := hmax (Nat.zero_le _)
      rwa [hptrs, stringAddrs_length] at this
    have haddr : espOf sz argv = sub32 sp ((3 + argv.length + 1) * 4) := by
      rw [espOf, ustackAddr, stringAddrs_length, ← hsp]
    obtain ⟨d2, ok, m2, hs2, hc2, hcopied, hlow⟩ := copyout_spec i hst.building hle
      (show ustackBytes sz argv ≠ [] from ne_nil_of_length_pos (by omega))
      (show espOf sz argv + (ustackBytes sz argv).length ≤ sp ∨
          DEVSPACE ≤ espOf sz argv ∧ espOf sz argv < 0x100000000 by
        rw [hlen, haddr]
        simp only [sub32, u32, KERNBASE, DEVSPACE, MAXARG] at *
        omega)
    have hget := hst.written.maps.image
    have hsame : ustackBytes sz argv = (ustackWords sp ptrs).flatMap wordBytes := by rw [hsp, hptrs]; rfl
    refine ⟨d2, ok, m2, ?_, ?_, hst.trans hcopied.toStays, fun hok => ?_, fun base hu hb hal _ => ?_⟩
    · rw [← hs2, hsame, espOf, ← hsp, ← hptrs]
    · rw [← hc2, hsame, espOf, ← hsp, ← hptrs]
      rfl
    · have hroom := hlow hok
      obtain ⟨hu, hbytes⟩ := hcopied.done hok
      rw [hlen] at hroom hu hbytes
      refine ⟨⟨?_, by rw [← hsp]; exact hroom, fun k hk => by rw [← hget]; exact hu k hk, hbytes⟩,
        fun a ha hlt => ?_⟩
      · refine hstr.congr (fun _ => rfl) fun a h1 h2 => hcopied.out a (by omega) (.inr ?_)
        rw [hlen]
        omega
      · rw [hcopied.out a ha (.inl hlt), hout a ha (.inl (by omega))]
    · have hend := stringsEnd_add hsz (by omega : stringsSize argv ≤ sz) hal
      refine hcopied.runs fun k hk => ?_
      rw [hlen] at hk
      have hesp : espOf sz argv + 4 * (4 + argv.length) = sp := by
        rw [haddr]
        simp only [sub32, u32, KERNBASE, MAXARG] at *
        omega
      have := hu (espOf sz argv - base + k) (by omega)
      rw [hget]
      rwa [show base + (espOf sz argv - base + k) = espOf sz argv + k by omega] at this

/-! ## No null pointer -/

theorem building_of_load {ip : List UInt8} {ph : Phys} (h : Inv ld m) (hs : m.Started)
    (hl : loadImage ld ip m.phys = .ok (some (d, some sz), ph)) : Building ld { m with phys := ph } d sz := by
  rcases loadImage_image h.acct hl with ⟨hc, -⟩ | ⟨d', o, heq, ha, hi⟩
  · cases hc
  · obtain ⟨rfl, rfl⟩ := Prod.mk.inj (Option.some.inj heq)
    exact ⟨ha, h.wf, h.excl, hs, (hi sz rfl).1⟩

end Xv6.Sys
