import Xv6.Sys.Exec
import Xv6.Vm.Copy

/-!
# Loading any file

All numbers in the headers come from the file. Whatever they are, the loading phase of `exec` comes
to its end, and it stays below `KERNBASE`.
-/

open Xv6.Cmd Xv6.Pool Xv6.Vm

namespace Xv6.Sys

variable {ld : Linker} {dom : Nat → Prop} {s s' : Phys} {own sh : Nat → Nat} {d d' : PgDir}
  {m m' : Machine} {i : Fin NPROC}

/-! ## A loader that stops at `KERNBASE` -/

/-- The loop of `loaduvm`, which stops before it writes through an entry from `KERNBASE` on. -/
def strictLoop (d : PgDir) (addr : Nat) (ip : List UInt8) (offset sz : Nat) : Nat → Nat → K Bool
  | 0, i => if i < sz then throw .hang else pure true
  | n + 1, i =>
    if i < sz then
      if KERNBASE ≤ u32 (addr + i) then throw .wild
      else if (d.tab (pdx (u32 (addr + i)))).isNone then throw (.panic "loaduvm: address should exist")
      else
        let pa := (d.get (u32 (addr + i))).ppn
        let len := if sz - i < PGSIZE then sz - i else PGSIZE
        match readi ip (u32 (offset + i)) len with
        | none => pure false
        | some bs => do
          (fun s => .ok ((), s.setMem pa (writeBytes (s.mem pa) 0 bs)) : K Unit)
          if bs.length = len then strictLoop d addr ip offset sz n (i + PGSIZE) else pure false
    else pure true

def strictLoaduvm (d : PgDir) (addr : Nat) (ip : List UInt8) (offset sz : Nat) : K Bool :=
  if addr % PGSIZE ≠ 0 then throw (.panic "loaduvm: addr must be page aligned")
  else strictLoop d addr ip offset sz (sz / PGSIZE + 1) 0

/-- The loop over the program headers, for any way to load a segment. -/
def loadSegsBy (load : PgDir → Nat → List UInt8 → Nat → Nat → K Bool) (ld : Linker) (ip : List UInt8) :
    Nat → Nat → PgDir → Nat → K (PgDir × Option Nat)
  | 0, _, d, sz => pure (d, some sz)
  | n + 1, off, d, sz =>
    match readFull ip off 32 with
    | none => pure (d, none)
    | some ph =>
      let vaddr := number ph 8 4
      let filesz := number ph 16 4
      let memsz := number ph 20 4
      if number ph 0 4 ≠ 1 then loadSegsBy load ld ip n (u32 (off + 32)) d sz
      else if memsz < filesz then pure (d, none)
      else if u32 (vaddr + memsz) < vaddr then pure (d, none)
      else do
        let (d, sz) ← allocuvm ld d sz (u32 (vaddr + memsz))
        if sz = 0 then pure (d, none)
        else if vaddr % PGSIZE ≠ 0 then pure (d, none)
        else do
          let ok ← load d vaddr ip (number ph 4 4) filesz
          if ok then loadSegsBy load ld ip n (u32 (off + 32)) d sz else pure (d, none)

/-- The two pages for the stack, on top of `sz` bytes. -/
def stackPages (ld : Linker) (d : PgDir) (sz : Nat) : K (PgDir × Option Nat) := do
  let sz := pgroundup sz
  let (d, sz) ← allocuvm ld d sz (u32 (sz + 2 * PGSIZE))
  if sz = 0 then pure (d, none)
  else do
    let d ← clearpteu d (sub32 sz (2 * PGSIZE))
    pure (d, some sz)

/-- `exec` up to the end of the loop over the program headers. -/
def loadFileBy (load : PgDir → Nat → List UInt8 → Nat → Nat → K Bool) (ld : Linker) (ip : List UInt8) :
    K (Option (PgDir × Option Nat)) :=
  match readFull ip 0 52 with
  | none => pure none
  | some elf =>
    if number elf 0 4 ≠ ELF_MAGIC then pure none
    else do
      match ← setupkvm ld with
      | none => pure none
      | some d => do
        let r ← loadSegsBy load ld ip (number elf 44 2) (number elf 28 4) d 0
        pure (some r)

def loadImageBy (load : PgDir → Nat → List UInt8 → Nat → Nat → K Bool) (ld : Linker) (ip : List UInt8) :
    K (Option (PgDir × Option Nat)) := do
  match ← loadFileBy load ld ip with
  | none => pure none
  | some (d, none) => pure (some (d, none))
  | some (d, some sz) => do
    let r ← stackPages ld d sz
    pure (some r)

theorem loadSegsBy_loaduvm (ip : List UInt8) (n off : Nat) (d : PgDir) (sz : Nat) :
    loadSegsBy loaduvm ld ip n off d sz = loadSegs ld ip n off d sz := by
  induction n generalizing off d sz with
  | zero => rfl
  | succ n ih =>
    unfold loadSegsBy loadSegs
    simp only [ih] <;> rfl

theorem loadImageBy_loaduvm (ip : List UInt8) : loadImageBy loaduvm ld ip = loadImage ld ip := by
  unfold loadImageBy loadFileBy loadImage stackPages
  simp only [loadSegsBy_loaduvm]
  cases readFull ip 0 52 with
  | none => rfl
  | some elf =>
    dsimp only
    split
    · rfl
    · simp only [bind_assoc]
      congr 1
      funext r
      cases r with
      | none => rfl
      | some d =>
        simp only [bind_assoc, pure_bind]
        congr 1
        funext x
        obtain ⟨d, o⟩ := x
        cases o with
        | none => rfl
        | some sz =>
          simp only [bind_assoc]
          congr 1
          funext y
          split
          · rfl
          · simp only [bind_assoc, pure_bind]

/-! ## The strict loader does not stop -/

theorem number_lt (b : List UInt8) (i n : Nat) : number b i n < 256 ^ n := by
  induction n generalizing i with
  | zero => exact Nat.one_pos
  | succ n ih =>
    have h1 := (b.getD i 0).toNat_lt
    have h2 := ih (i + 1)
    rw [number, Nat.pow_succ]
    omega

theorem loadLoop_of_strict {addr offset sz n k : Nat} {ip : List UInt8} {r : Bool × Phys}
    (h : strictLoop d addr ip offset sz n k s = .ok r) : loadLoop d addr ip offset sz n k s = .ok r := by
  induction n generalizing k s with
  | zero => exact h
  | succ n ih =>
    unfold strictLoop at h
    unfold loadLoop
    by_cases hk : k < sz
    · rw [if_pos hk] at h ⊢
      split at h
      · exact (throw_ok h).elim
      · split at h
        · exact (throw_ok h).elim
        · next htab =>
          rw [if_neg htab]
          dsimp only at h ⊢
          generalize (if sz - k < PGSIZE then sz - k else PGSIZE) = len at h ⊢
          generalize readi ip (u32 (offset + k)) len = x at h ⊢
          cases x with
          | none => exact h
          | some bs =>
            obtain ⟨_, s1, hset, h⟩ := bind_ok h
            refine (bind_of_ok hset).trans ?_
            by_cases hlen : bs.length = len
            · rw [if_pos hlen] at h ⊢
              exact ih h
            · rw [if_neg hlen] at h ⊢
              exact h
    · rw [if_neg hk] at h ⊢
      exact h

theorem strictLoop_runs {addr sz n k : Nat} (ip : List UInt8) (offset : Nat) (hk : addr + sz ≤ KERNBASE)
    (htab : ∀ va, addr ≤ va → va < addr + sz → d.HasTab va) (hn : sz ≤ k + n * PGSIZE) (s : Phys) :
    ∃ r s', strictLoop d addr ip offset sz n k s = .ok (r, s') := by
  induction n generalizing k s with
  | zero =>
    rw [strictLoop, if_neg (by omega)]
    exact ⟨true, s, rfl⟩
  | succ n ih =>
    unfold strictLoop
    split
    · next hlt =>
      have hva : u32 (addr + k) = addr + k := u32_of_lt (by simp only [KERNBASE] at hk; omega)
      rw [hva, if_neg (by omega), if_neg (by
        simpa [PgDir.HasTab, Option.isSome_iff_ne_none] using htab (addr + k) (by omega) (by omega))]
      generalize (if sz - k < PGSIZE then sz - k else PGSIZE) = len
      generalize readi ip (u32 (offset + k)) len = x
      cases x with
      | none => exact ⟨false, s, rfl⟩
      | some bs =>
        refine Exists.imp (fun r => Exists.imp fun s' => (bind_of_ok rfl).trans) ?_
        split
        · exact ih (by simp only [PGSIZE] at *; omega) _
        · exact ⟨false, _, rfl⟩
    · exact ⟨true, s, rfl⟩

theorem strictLoaduvm_runs {addr sz : Nat} (ip : List UInt8) (offset : Nat) (hal : addr % PGSIZE = 0)
    (hk : addr + sz ≤ KERNBASE) (htab : ∀ va, addr ≤ va → va < addr + sz → d.HasTab va) (s : Phys) :
    ∃ r s', strictLoaduvm d addr ip offset sz s = .ok (r, s') ∧ loaduvm d addr ip offset sz s = .ok (r, s') := by
  unfold strictLoaduvm loaduvm
  rw [if_neg (by omega), if_neg (by omega)]
  obtain ⟨r, s', h⟩ := strictLoop_runs (n := sz / PGSIZE + 1) (k := 0) ip offset hk htab
    (by simp only [PGSIZE]; omega) s
  exact ⟨r, s', h, loadLoop_of_strict h⟩

theorem Image.alloc_runs {sz : Nat} (h : Image ld sh d sz) (newsz : Nat) (hdom : ∀ p, dom p → Managed ld p)
    (ha : Acct dom s (d.kernRefs + own) (d.userRefs + sh)) :
    ∃ d' r s', allocuvm ld d sz newsz s = .ok ((d', r), s') ∧ KernelMap ld d' := by
  have hruns : ∃ d' r s', allocuvm ld d sz newsz s = .ok ((d', r), s') := by
    by_cases hk : KERNBASE ≤ newsz
    · exact ⟨d, 0, s, by rw [allocuvm, if_pos hk]; rfl⟩
    · by_cases hlt : newsz < sz
      · exact ⟨d, sz, s, by rw [allocuvm, if_neg hk, if_pos hlt]; rfl⟩
      · have habs : ∀ va < KERNBASE, pgroundup sz ≤ va → (d.get va).present = false := by
          intro va hva hle
          by_contra hp
          have := h.below va hva (by simpa using hp)
          rw [pgroundup_of_le h.sz_le] at hle
          simp only [PGSIZE] at *
          omega
        obtain ⟨d', r, s', hal, -⟩ :=
          allocuvm_all_or_nothing (Nat.not_lt.mp hlt) (Nat.not_le.mp hk) habs (freeOk_of_acct hdom ha)
        exact ⟨d', r, s', hal⟩
  obtain ⟨d', r, s', hal⟩ := hruns
  refine ⟨d', r, s', hal, ?_⟩
  by_cases hr : r = 0
  · subst hr
    rcases allocuvm_fail ha hal with ⟨hget, -⟩ | ⟨-, hnew, hun⟩
    · exact h.kmap.congr fun va _ _ => hget va
    · refine h.kmap.congr fun va h1 h2 => hun.out va h1 (.inr ?_)
      simp only [KERNBASE, PGSIZE] at *
      omega
  · exact (h.grow ha hal hr).1.kmap

/-- The loading phase so far, from the state `s0`, with an image that may have gone `bad`. -/
structure Loaded (ld : Linker) (dom : Nat → Prop) (own sh : Nat → Nat) (s0 : Phys) (x : PgDir × Option Nat)
    (s : Phys) : Prop where
  acct : Acct dom s (x.1.kernRefs + own) (x.1.userRefs + sh)
  kmap : KernelMap ld x.1
  image : ∀ sz, x.2 = some sz → Image ld sh x.1 sz
  kept : Kept (own + sh) s0 s
  counts : CountsKept dom s0 s

theorem Loaded.bad {x : PgDir × Option Nat} {s0 : Phys} (h : Loaded ld dom own sh s0 x s) :
    Loaded ld dom own sh s0 (x.1, none) s :=
  ⟨h.acct, h.kmap, nofun, h.kept, h.counts⟩

theorem Loaded.of_image {sz : Nat} {s0 : Phys} (h : Loaded ld dom own sh s0 (d, some sz) s) : Image ld sh d sz :=
  h.image sz rfl

theorem loadLoop_kept {addr offset sz n k : Nat} {ip : List UInt8} {r : Bool}
    (ha : Acct dom s (d.kernRefs + own) (d.userRefs + sh)) (hpriv : Private d sh)
    (hk : addr + sz ≤ KERNBASE) (hpres : ∀ va, addr ≤ va → va < addr + sz → (d.get va).present = true)
    (h : loadLoop d addr ip offset sz n k s = .ok (r, s')) : Kept (own + sh) s s' ∧ CountsKept dom s s' := by
  induction n generalizing s k with
  | zero =>
    unfold loadLoop at h
    split at h
    · exact (throw_ok h).elim
    · obtain ⟨-, rfl⟩ := Prod.mk.inj (pure_ok h)
      exact ⟨.refl _ _, fun _ _ => rfl⟩
  | succ n ih =>
    unfold loadLoop at h
    split at h
    · next hlt =>
      split at h
      · exact (throw_ok h).elim
      · dsimp only at h
        generalize (if sz - k < PGSIZE then sz - k else PGSIZE) = len at h
        generalize readi ip (u32 (offset + k)) len = x at h
        cases x with
        | none =>
          obtain ⟨-, rfl⟩ := Prod.mk.inj (pure_ok h)
          exact ⟨.refl _ _, fun _ _ => rfl⟩
        | some bs =>
          obtain ⟨_, s1, hset, h⟩ := bind_ok h
          obtain ⟨-, rfl⟩ := Prod.mk.inj (Except.ok.inj hset)
          have hva : u32 (addr + k) = addr + k := u32_of_lt (by simp only [KERNBASE] at hk; omega)
          have hp := hpres (addr + k) (by omega) (by omega)
          have hzero : (own + sh) (d.get (u32 (addr + k))).ppn = 0 := by
            rw [hva]
            have hpos := PgDir.userRefs_pos hp (by omega)
            have hsh := (hpriv (addr + k) (by omega) hp).2
            have hex := ha.excl (d.get (addr + k)).ppn
            simp only [Pi.add_apply] at hex ⊢
            omega
          have hkept : Kept (own + sh) s (s.setMem (d.get (u32 (addr + k))).ppn _) := Kept.setMem hzero
            (writeBytes (s.mem (d.get (u32 (addr + k))).ppn) 0 bs)
          split at h
          · obtain ⟨h1, h2⟩ := ih (acct_setMem ha _) h
            exact ⟨hkept.trans h1, h2⟩
          · obtain ⟨-, rfl⟩ := Prod.mk.inj (pure_ok h)
            exact ⟨hkept, fun _ _ => rfl⟩
    · obtain ⟨-, rfl⟩ := Prod.mk.inj (pure_ok h)
      exact ⟨.refl _ _, fun _ _ => rfl⟩

theorem loaduvm_kept {addr offset sz : Nat} {ip : List UInt8} {r : Bool}
    (ha : Acct dom s (d.kernRefs + own) (d.userRefs + sh)) (hpriv : Private d sh)
    (hk : addr + sz ≤ KERNBASE) (hpres : ∀ va, addr ≤ va → va < addr + sz → (d.get va).present = true)
    (h : loaduvm d addr ip offset sz s = .ok (r, s')) : Kept (own + sh) s s' ∧ CountsKept dom s s' := by
  unfold loaduvm at h
  split at h
  · exact (throw_ok h).elim
  · exact loadLoop_kept ha hpriv hk hpres h

theorem segment_fits {vaddr filesz memsz sz r : Nat} (hv : vaddr < 0x100000000) (hm : memsz < 0x100000000)
    (hfile : ¬ memsz < filesz) (hwrap : ¬ u32 (vaddr + memsz) < vaddr)
    (ha : Acct dom s (d.kernRefs + own) (d.userRefs + sh))
    (hal : allocuvm ld d sz (u32 (vaddr + memsz)) s = .ok ((d', r), s')) (hr : r ≠ 0) :
    vaddr + filesz ≤ r := by
  have hsum : u32 (vaddr + memsz) = vaddr + memsz := by
    simp only [u32] at *
    omega
  rw [hsum] at hal
  obtain ⟨-, ⟨hlt, rfl, -⟩ | ⟨-, rfl, -⟩⟩ := allocuvm_ok ha hal hr <;> omega

theorem loadSegs_runs {sz : Nat} {s0 : Phys} (ip : List UInt8) (n off : Nat) (hdom : ∀ p, dom p → Managed ld p)
    (hl : Loaded ld dom own sh s0 (d, some sz) s) :
    ∃ x s', loadSegsBy strictLoaduvm ld ip n off d sz s = .ok (x, s') ∧
      loadSegsBy loaduvm ld ip n off d sz s = .ok (x, s') ∧ Loaded ld dom own sh s0 x s' := by
  induction n generalizing s d sz off with
  | zero => exact ⟨(d, some sz), s, rfl, rfl, hl⟩
  | succ n ih =>
    have hi := hl.of_image
    unfold loadSegsBy
    cases readFull ip off 32 with
    | none => exact ⟨(d, none), s, rfl, rfl, hl.bad⟩
    | some ph =>
      dsimp only
      split
      · exact ih _ hl
      split
      · exact ⟨(d, none), s, rfl, rfl, hl.bad⟩
      next hfile =>
      split
      · exact ⟨(d, none), s, rfl, rfl, hl.bad⟩
      next hwrap =>
      obtain ⟨d1, r, s1, hal, hk1⟩ := hi.alloc_runs (u32 (number ph 8 4 + number ph 20 4)) hdom hl.acct
      obtain ⟨ha1, hkept1⟩ := acct_allocuvm hl.acct hal
      have hbad1 : Loaded ld dom own sh s0 (d1, none) s1 :=
        ⟨ha1, hk1, nofun, hl.kept.trans hkept1, hl.counts.trans (allocuvm_countsKept hl.acct hal)⟩
      rw [bind_of_ok hal, bind_of_ok hal]
      dsimp only
      split
      · exact ⟨(d1, none), s1, rfl, rfl, hbad1⟩
      next hr =>
      split
      · exact ⟨(d1, none), s1, rfl, rfl, hbad1⟩
      next hal4 =>
      have hi1 := (hi.grow hl.acct hal hr).1
      have hfit := segment_fits (number_lt ph 8 4) (number_lt ph 20 4) hfile hwrap hl.acct hal hr
      have hpres : ∀ va, number ph 8 4 ≤ va → va < number ph 8 4 + number ph 16 4 → (d1.get va).present = true :=
        fun va _ hlt => hi1.full va (by simp only [PGSIZE]; omega)
      obtain ⟨ok, s2, hstrict, hload⟩ := strictLoaduvm_runs ip (number ph 4 4)
        (Decidable.not_not.mp hal4) (Nat.le_trans hfit hi1.sz_le)
        (fun va h1 h2 => PgDir.hasTab_of_present (hpres va h1 h2)) s1
      obtain ⟨hkept2, hcounts2⟩ := loaduvm_kept ha1 hi1.priv (Nat.le_trans hfit hi1.sz_le) hpres hload
      have hl2 : Loaded ld dom own sh s0 (d1, some r) s2 :=
        ⟨acct_loaduvm ha1 hload, hk1, fun _ hs => Option.some.inj hs ▸ hi1, hbad1.kept.trans hkept2,
          hbad1.counts.trans hcounts2⟩
      rw [bind_of_ok hstrict, bind_of_ok hload]
      split
      · exact ih _ hl2
      · exact ⟨(d1, none), s2, rfl, rfl, hl2.bad⟩

/-- The guard page is a page of the image, so `clearpteu` finds its entry. -/
theorem stackPages_runs {sz : Nat} {s0 : Phys} (hdom : ∀ p, dom p → Managed ld p)
    (hl : Loaded ld dom own sh s0 (d, some sz) s) :
    ∃ x s', stackPages ld d sz s = .ok (x, s') ∧ Loaded ld dom own sh s0 x s' := by
  have hround := hl.of_image.round
  have hle := hround.sz_le
  obtain ⟨d1, r, s1, hal, hk1⟩ := hround.alloc_runs (u32 (pgroundup sz + 2 * PGSIZE)) hdom hl.acct
  obtain ⟨ha1, hkept1⟩ := acct_allocuvm hl.acct hal
  have hbad1 : Loaded ld dom own sh s0 (d1, none) s1 :=
    ⟨ha1, hk1, nofun, hl.kept.trans hkept1, hl.counts.trans (allocuvm_countsKept hl.acct hal)⟩
  unfold stackPages
  dsimp only
  rw [bind_of_ok hal]
  dsimp only
  split
  · exact ⟨(d1, none), s1, rfl, hbad1⟩
  · next hr =>
    have hnew : u32 (pgroundup sz + 2 * PGSIZE) = pgroundup sz + 2 * PGSIZE :=
      u32_of_lt (by simp only [KERNBASE, PGSIZE] at *; omega)
    obtain ⟨hlt, ⟨hc, -⟩ | ⟨-, hreq, -⟩⟩ := allocuvm_ok hl.acct hal hr
    · omega
    have hi1 := (hround.grow hl.acct hal hr).1
    have huva : sub32 r (2 * PGSIZE) = pgroundup sz := by
      rw [hreq, hnew]
      simp only [sub32, u32, KERNBASE, PGSIZE] at *
      omega
    have htab : d1.HasTab (pgroundup sz) := hi1.tabs _ (by rw [hreq, hnew]; simp only [PGSIZE]; omega)
    have hlow : pgroundup sz < KERNBASE := by omega
    have hclear : clearpteu d1 (sub32 r (2 * PGSIZE)) s1 =
        .ok (d1.set (pgroundup sz) { d1.get (pgroundup sz) with user := false }, s1) := by
      rw [huva, clearpteu, if_neg]
      · rfl
      · simpa [PgDir.HasTab, Option.isSome_iff_ne_none] using htab
    rw [bind_of_ok hclear]
    have hi2 := hi1.clear htab hlow
    refine ⟨_, s1, rfl, ?_, hi2.kmap, fun sz' hs => Option.some.inj hs ▸ hi2, hbad1.kept, hbad1.counts⟩
    exact ha1.congr (fun q => by simp only [Pi.add_apply, PgDir.kernRefs_set])
      fun q => by simp only [Pi.add_apply, (clear_user htab hlow).2]

theorem loadFile_runs (ip : List UInt8) (hdom : ∀ p, dom p → Managed ld p) (ha : Acct dom s own sh) :
    ∃ r s', loadFileBy strictLoaduvm ld ip s = .ok (r, s') ∧ loadFileBy loaduvm ld ip s = .ok (r, s') ∧
      (r = none → Acct dom s' own sh ∧ Kept (own + sh) s s' ∧ CountsKept dom s s') ∧
      ∀ x, r = some x → Loaded ld dom own sh s x s' := by
  unfold loadFileBy
  cases readFull ip 0 52 with
  | none => exact ⟨none, s, rfl, rfl, fun _ => ⟨ha, .refl _ _, fun _ _ => rfl⟩, nofun⟩
  | some elf =>
    dsimp only
    split
    · exact ⟨none, s, rfl, rfl, fun _ => ⟨ha, .refl _ _, fun _ _ => rfl⟩, nofun⟩
    obtain ⟨o, s1, hk⟩ := setupkvm_runs hdom ha
    have hcounts := setupkvm_counts ha hk
    rw [bind_of_ok hk, bind_of_ok hk]
    cases o with
    | none =>
      obtain ⟨ha1, hkept⟩ := acct_setupkvm_none ha hk
      exact ⟨none, s1, rfl, rfl, fun _ => ⟨ha1, hkept, hcounts⟩, nofun⟩
    | some d =>
      obtain ⟨ha1, hkept⟩ := acct_setupkvm ha hk
      have hi : Image ld sh d 0 := image_new hk
      have hl : Loaded ld dom own sh s (d, some 0) s1 :=
        ⟨ha1, hi.kmap, fun _ hs => Option.some.inj hs ▸ hi, hkept, hcounts⟩
      obtain ⟨x, s2, hstrict, hload, hx⟩ := loadSegs_runs ip (number elf 44 2) (number elf 28 4) hdom hl
      refine ⟨some x, s2, (bind_of_ok hstrict).trans rfl, (bind_of_ok hload).trans rfl, nofun, ?_⟩
      rintro _ ⟨⟩
      exact hx

theorem loadImage_runs (ip : List UInt8) (hdom : ∀ p, dom p → Managed ld p) (ha : Acct dom s own sh) :
    ∃ r s', loadImageBy strictLoaduvm ld ip s = .ok (r, s') ∧ loadImage ld ip s = .ok (r, s') ∧
      ∀ x, r = some x → Loaded ld dom own sh s x s' := by
  rw [← loadImageBy_loaduvm]
  unfold loadImageBy
  obtain ⟨r, s1, hstrict, hload, -, hx⟩ := loadFile_runs ip hdom ha
  rw [bind_of_ok hstrict, bind_of_ok hload]
  cases r with
  | none => exact ⟨none, s1, rfl, rfl, nofun⟩
  | some x =>
    obtain ⟨d, o⟩ := x
    have hx1 := hx _ rfl
    cases o with
    | none => exact ⟨some (d, none), s1, rfl, rfl, fun y hy => Option.some.inj hy ▸ hx1⟩
    | some sz =>
      obtain ⟨y, s2, hst, hy⟩ := stackPages_runs hdom hx1
      exact ⟨some y, s2, (bind_of_ok hst).trans rfl, (bind_of_ok hst).trans rfl,
        fun z hz => Option.some.inj hz ▸ hy⟩

/-! ## Any file -/

/-- The loading phase of `exec` fails with -1 or gives an image. The strict loader has the same
result, so nothing from `KERNBASE` on is written through, and the entries there are the ones of
`setupkvm`. -/
theorem exec_loads_any_file (ip : List UInt8) (hfree : FreeOk ld m.phys) :
    ∃ r ph, loadImageBy strictLoaduvm ld ip m.phys = .ok (r, ph) ∧ loadImage ld ip m.phys = .ok (r, ph) ∧
      (∀ d o, r = some (d, o) → KernelMap ld d) ∧
      ((∀ argv, ∃ m', exec ld i (some ip) argv m = .ok (false, m')) ∨ ∃ d sz, r = some (d, some sz)) := by
  obtain ⟨r, ph, hstrict, hload, hx⟩ := loadImage_runs ip hfree.managed hfree.acct
  refine ⟨r, ph, hstrict, hload, fun d o hr => (hx _ hr).kmap, ?_⟩
  match r, hx with
  | none, _ =>
    left
    intro argv
    refine ⟨{ m with phys := ph }, ?_⟩
    unfold exec
    exact (bind_of_ok (onPhys_of_ok hload)).trans rfl
  | some (d, none), hx =>
    left
    intro argv
    obtain ⟨ph2, hf⟩ := freevm_total hfree.managed (hx _ rfl).acct
    refine ⟨{ m with phys := ph2 }, ?_⟩
    unfold exec
    exact (bind_of_ok (onPhys_of_ok hload)).trans ((bind_of_ok (onPhys_of_ok hf)).trans rfl)
  | some (d, some sz), _ => exact .inr ⟨d, sz, rfl⟩

/-- A header that asks for 65535 segments from the last byte of the address space on. -/
theorem exec_loads_wild_header : ∃ r ph,
    loadImage smallKernel ([0x7f, 0x45, 0x4c, 0x46] ++ List.replicate 48 0xff) (freshPhys 0x400 100) =
      .ok (r, ph) := by
  have hfree : FreeOk smallKernel (freshPhys 0x400 100) := freeOk_fresh (by decide) (by decide)
  obtain ⟨r, ph, -, h, -⟩ := exec_loads_any_file (i := initproc)
    (m := ⟨freshPhys 0x400 100, ⟨0, fun _ => none⟩, [], fun _ => none, []⟩)
    ([0x7f, 0x45, 0x4c, 0x46] ++ List.replicate 48 0xff) hfree
  exact ⟨r, ph, h⟩

end Xv6.Sys
