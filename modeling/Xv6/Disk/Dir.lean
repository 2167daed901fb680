import Xv6.Disk.Cache

/-!
# Directories

`dirlookup` and `dirlink` on the bytes of a directory. A directory is a map from names to inode numbers,
and this is what every sequence of links and removals does to it.
-/

open Xv6.Bytes Xv6.Cmd List

namespace Xv6.Disk

variable {cf : Conf} {s0 s s' s1 s2 : State} {L hs : List Slot} {q r dp : Slot} {i j k m n v inum off : Nat}
  {E : Stop → Prop} {name : Mem}

/-- The bytes of the inode in slot `dp`. -/
def State.bytes (s : State) (dp : Slot) : List UInt8 := contents s.block (s.icache dp).toDinode

/-- A directory that is open. -/
structure Dir (cf : Conf) (s : State) (dp : Slot) : Prop extends Ready cf s dp where
  isDir : (s.icache dp).type = T_DIR
  entries : (s.icache dp).size % DENT = 0

@[simp] theorem length_bytes_dir : (s.bytes dp).length = (s.icache dp).size := length_contents _ _

theorem Dir.congr (h : Dir cf s dp) (hb : s'.block = s.block) (hf : s'.bufs = s.bufs)
    (hx : (s'.icache dp).toDinode = (s.icache dp).toDinode) (hi : (s'.icache dp).inum = (s.icache dp).inum) :
    Dir cf s' dp := by
  have hview : view cf s' dp = view cf s dp := by rw [view, view, hb, hx, hi]
  refine ⟨⟨⟨by rw [hi]; exact h.inum, by rw [hx]; exact h.type, by rw [hb, hview]; exact h.sound⟩, hf.trans h.bufs, ?_, ?_, ?_⟩,
    ?_, ?_⟩
  · rw [hb, hi, hx, h.disk]
  · rw [hb, hx]
    exact h.full
  · rw [hx]
    exact h.kind
  · rw [hx]
    exact h.isDir
  · rw [hx]
    exact h.entries

namespace Dir

variable (h : Dir cf s dp)

include h

theorem entries_bytes : (s.bytes dp).length % DENT = 0 := by rw [length_bytes_dir, h.entries]

theorem size_eq : (s.icache dp).size = DENT * count (s.bytes dp) := by
  have := h.entries
  rw [count, length_bytes_dir]
  simp only [DENT] at *
  omega

theorem offset_lt (hj : j ≤ count (s.bytes dp)) : DENT * j ≤ (s.icache dp).size ∧ DENT * j + DENT < 0x100000000 := by
  have h1 := h.size_eq
  have h2 := h.full.size_le
  have h3 : DENT * j ≤ DENT * count (s.bytes dp) := Nat.mul_le_mul_left _ hj
  simp only [DENT, MAXFILE, NDIRECT, NINDIRECT, BSIZE] at *
  omega

theorem offset_lt_iff : DENT * j < (s.icache dp).size ↔ j < count (s.bytes dp) := by
  rw [h.size_eq]
  exact Nat.mul_lt_mul_left (by decide)

theorem readi_entry (hj : j < count (s.bytes dp)) :
    readi cf dp (DENT * j) DENT s = .ok (some (chunk (s.bytes dp) j), s) := by
  obtain ⟨h1, h2⟩ := h.offset_lt (Nat.le_of_lt hj)
  rw [readi_spec h.toReady (by omega) (by decide), if_pos ⟨h1, h2⟩]
  rfl

theorem length_chunk (hj : j < count (s.bytes dp)) : (chunk (s.bytes dp) j).length = DENT := by
  have h1 := h.size_eq
  have h2 : DENT * (j + 1) ≤ DENT * count (s.bytes dp) := Nat.mul_le_mul_left _ hj
  rw [chunk, length_take, length_drop, length_bytes_dir]
  simp only [DENT] at *
  omega

end Dir

/-! ## Looking for an entry -/

theorem holds_cell (bs : List UInt8) (name : Mem) (j : Nat) : Table.Holds (cell bs) (key name) j ↔
    (getDirent (chunk bs j)).inum ≠ 0 ∧ namecmp name (getDirent (chunk bs j)).name = 0 := by
  rw [namecmp_eq_zero, Table.Holds, cell]
  by_cases h0 : (getDirent (chunk bs j)).inum = 0
  · simp [h0]
  · simp [h0, eq_comm]

theorem isNone_cell (bs : List UInt8) (j : Nat) : (cell bs j).isNone = decide ((getDirent (chunk bs j)).inum = 0) := by
  rw [cell]
  by_cases h0 : (getDirent (chunk bs j)).inum = 0 <;> simp [h0]

/-- The first entry from `j` on that meets `p`. -/
def nextEntry (p : Nat → Bool) (j n : Nat) : Option Nat := (List.range' j (n - j)).find? p

theorem nextEntry_of_lt (p : Nat → Bool) (h : j < n) : nextEntry p j n = if p j then some j else nextEntry p (j + 1) n := by
  have hn : n - j = (n - (j + 1)) + 1 := by omega
  rw [nextEntry, hn, List.range'_succ, List.find?_cons]
  cases p j <;> rfl

theorem nextEntry_of_le (p : Nat → Bool) (h : n ≤ j) : nextEntry p j n = none := by
  rw [nextEntry, Nat.sub_eq_zero_of_le h]
  rfl

theorem lookupLoop_eq (h : Dir cf s dp) (k : Nat) (hj : j ≤ count (s.bytes dp)) (hk : count (s.bytes dp) < k + j) :
    lookupLoop cf dp name k (DENT * j) s =
      .ok ((nextEntry (fun m => Table.Holds (cell (s.bytes dp)) (key name) m) j (count (s.bytes dp))).map
        fun m => ((getDirent (chunk (s.bytes dp) m)).inum, DENT * m), s) := by
  induction k generalizing j with
  | zero => omega
  | succ k ih =>
    rw [lookupLoop, bind_of_ok (rfl : inode dp s = .ok (s.icache dp, s))]
    by_cases hlt : j < count (s.bytes dp)
    · rw [if_pos (h.offset_lt_iff.mpr hlt), bind_of_ok (h.readi_entry hlt), nextEntry_of_lt _ hlt]
      simp only [h.length_chunk hlt, ne_eq, not_true, if_false, ← ne_eq, ← holds_cell]
      by_cases hit : Table.Holds (cell (s.bytes dp)) (key name) j
      · simp only [hit, if_true, decide_true]
        rfl
      · have hnext : u32 (DENT * j + DENT) = DENT * (j + 1) := by
          rw [u32_of_lt (h.offset_lt (Nat.le_of_lt hlt)).2, Nat.mul_succ]
        simp only [hit, if_false, decide_false, hnext]
        exact ih (by omega) (by omega)
    · rw [if_neg (mt h.offset_lt_iff.mp hlt), nextEntry_of_le _ (by omega)]
      rfl

theorem emptyLoop_eq (h : Dir cf s dp) (k : Nat) (hj : j ≤ count (s.bytes dp)) (hk : count (s.bytes dp) < k + j) :
    emptyLoop cf dp k (DENT * j) s =
      .ok (DENT * (nextEntry (fun m => (cell (s.bytes dp) m).isNone) j (count (s.bytes dp))).getD (count (s.bytes dp)), s) := by
  induction k generalizing j with
  | zero => omega
  | succ k ih =>
    rw [emptyLoop, bind_of_ok (rfl : inode dp s = .ok (s.icache dp, s))]
    by_cases hlt : j < count (s.bytes dp)
    · rw [if_pos (h.offset_lt_iff.mpr hlt), bind_of_ok (h.readi_entry hlt), nextEntry_of_lt _ hlt]
      simp only [h.length_chunk hlt, ne_eq, not_true, if_false, isNone_cell]
      by_cases hit : (getDirent (chunk (s.bytes dp) j)).inum = 0
      · simp only [hit, if_true, decide_true]
        rfl
      · have hnext : u32 (DENT * j + DENT) = DENT * (j + 1) := by
          rw [u32_of_lt (h.offset_lt (Nat.le_of_lt hlt)).2, Nat.mul_succ]
        simp only [hit, if_false, decide_false, hnext]
        rw [ih (by omega) (by omega)]
        simp only [isNone_cell]
        rfl
    · rw [if_neg (mt h.offset_lt_iff.mp hlt), nextEntry_of_le _ (by omega)]
      have : j = count (s.bytes dp) := by omega
      subst this
      rfl

theorem nextEntry_zero (p : Nat → Bool) (n : Nat) : nextEntry p 0 n = (List.range n).find? p := by
  rw [nextEntry, Nat.sub_zero, range_eq_range']

/-- The entries as a map. -/
def State.entries (s : State) (dp : Slot) : List UInt8 → Option Nat :=
  Table.get (cell (s.bytes dp)) (count (s.bytes dp))

/-- The entry with the name. -/
def State.find (s : State) (dp : Slot) (name : Mem) : Option Nat :=
  Table.index (cell (s.bytes dp)) (count (s.bytes dp)) (key name)

/-- The entry that `dirlink` uses. -/
def State.vacancy (s : State) (dp : Slot) : Nat := Table.vacancy (cell (s.bytes dp)) (count (s.bytes dp))

theorem vacancy_le (s : State) (dp : Slot) : s.vacancy dp ≤ count (s.bytes dp) := Table.vacancy_le _ _

theorem cell_of_find (h : s.find dp name = some j) :
    j < count (s.bytes dp) ∧ cell (s.bytes dp) j = some (key name, (getDirent (chunk (s.bytes dp) j)).inum) := by
  obtain ⟨hlt, hk⟩ := Table.index_mem h
  refine ⟨hlt, ?_⟩
  have hh := (holds_cell _ _ _).mp hk
  rw [namecmp_eq_zero] at hh
  rw [cell, if_neg hh.1, hh.2]

theorem entries_of_find (h : s.find dp name = some j) :
    s.entries dp (key name) = some (getDirent (chunk (s.bytes dp) j)).inum := by
  unfold State.entries Table.get
  have := (cell_of_find h).2
  unfold State.find at h
  rw [h, Option.bind_some, this]
  rfl

/-- The number of the inode in the entry `j`. -/
def State.inumAt (s : State) (dp : Slot) (j : Nat) : Nat := (getDirent (chunk (s.bytes dp) j)).inum

theorem dirlookup_eq (h : Dir cf s dp) (name : Mem) : dirlookup cf dp name s =
    (match s.find dp name with
      | none => pure none
      | some j => do
        let ip ← iget (s.inumAt dp j)
        pure (some (ip, DENT * j)) : K (Option (Slot × Nat))) s := by
  have hfuel : (s.icache dp).size / DENT + 1 = count (s.bytes dp) + 1 := by
    rw [h.size_eq, Nat.mul_div_cancel_left _ (by decide)]
  have hloop : lookupLoop cf dp name (count (s.bytes dp) + 1) (DENT * 0) s = _ :=
    lookupLoop_eq h _ (Nat.zero_le _) (by omega)
  rw [nextEntry_zero, Nat.mul_zero] at hloop
  change lookupLoop cf dp name _ 0 s = .ok ((s.find dp name).map _, s) at hloop
  rw [dirlookup, bind_of_ok (rfl : inode dp s = .ok (s.icache dp, s)), if_neg (not_not.mpr h.isDir), hfuel,
    bind_of_ok hloop]
  cases s.find dp name <;> rfl

theorem dirlookup_none (h : Dir cf s dp) (hfind : s.find dp name = none) : dirlookup cf dp name s = .ok (none, s) := by
  rw [dirlookup_eq h, hfind]
  rfl

theorem dirlookup_ends (h : Dir cf s dp) (hf : From cf s0 L hs s) (hfind : s.find dp name = some j)
    (hroom : E (.panic "iget: no inodes") ∨ hs.length < (spare s0).card) :
    Ends E (dirlookup cf dp name) s fun r s' => ∃ q, r = some (q, DENT * j) ∧ From cf s0 L (q :: hs) s' ∧
      (s'.icache q).inum = s.inumAt dp j ∧ (0 < (s.icache q).ref → (s.icache q).inum = s.inumAt dp j) ∧
      ((s'.icache q).valid = true → 2 ≤ (s'.icache q).ref) ∧
      ∀ r, 0 < (s.icache r).ref → r ≠ q → s'.icache r = s.icache r := by
  unfold Ends
  rw [dirlookup_eq h, hfind]
  exact (iget_ends hf _ hroom).bind fun q s' hq => ends_pure ⟨q, rfl, hq⟩

/-! ## `dirlink` -/

theorem Written.dir {src : List UInt8} (hw : Written cf dp (DENT * v) src s s') (h : Dir cf s dp)
    (hsrc : src.length = DENT) (hv : v ≤ count (s.bytes dp)) :
    Dir cf s' dp ∧ s'.bytes dp = putEntry (s.bytes dp) v src := by
  have hbytes : s'.bytes dp = putEntry (s.bytes dp) v src := hw.contents
  have hlen := length_putEntry hsrc h.entries_bytes hv
  rw [← hbytes, length_bytes_dir] at hlen
  refine ⟨⟨hw.ready, ?_, ?_⟩, hbytes⟩
  · rw [hw.inode]
    exact h.isDir
  · rw [hlen, Nat.mul_mod_right]

/-- A name that is there: `dirlink` gives the inode back, and waits for it if the process has locked it. -/
theorem dirlink_found (h : Dir cf s dp) (hf : From cf s0 L hs s) (hfind : s.find dp name = some j)
    (hself : E .block ∨ ∀ r ∈ L, (s.icache r).inum ≠ s.inumAt dp j)
    (hroom : E (.panic "iget: no inodes") ∨ hs.length < (spare s0).card) :
    Ends E (dirlink cf dp name inum) s fun r s' => r = -1 ∧ From cf s0 L hs s' := by
  unfold dirlink
  refine (dirlookup_ends h hf hfind hroom).bind fun r s1 ⟨q, hr, hf1, hinum, hold, hshared, _⟩ => ?_
  subst hr
  by_cases hq : q ∈ L
  · rcases hself with hE | hself
    · have hlocked : (s1.icache q).locked = true := by simpa [hq] using hf1.locks q
      exact Ends.bind (P := fun _ _ => False) (iput_locked hlocked hE) fun _ _ hc => hc.elim
    · exact absurd (hold (hf.locked_ref q hq)) (hself q hq)
  · refine (iput_ends hf1 hq fun hc => ?_).bind fun _ s2 ⟨hf2, _⟩ => ends_pure ⟨rfl, hf2⟩
    have := hshared hc.1
    omega

theorem dirlink_new (hl : cf.Layout) (h : Dir cf s dp) (hfind : s.find dp name = none)
    (hmax : DENT * s.vacancy dp < MAXFILE * BSIZE) (hr : Room cf (needs (DENT * s.vacancy dp) DENT) s dp) :
    ∃ s', dirlink cf dp name inum s = .ok (0, s') ∧
      Written cf dp (DENT * s.vacancy dp) (Dirent.bytes ⟨inum, strncpy (fun _ => 0) name DIRSIZ 0⟩) s s' := by
  have hfuel : (s.icache dp).size / DENT + 1 = count (s.bytes dp) + 1 := by
    rw [h.size_eq, Nat.mul_div_cancel_left _ (by decide)]
  have hloop := emptyLoop_eq (j := 0) h (count (s.bytes dp) + 1) (Nat.zero_le _) (by omega)
  rw [nextEntry_zero, Nat.mul_zero] at hloop
  change emptyLoop cf dp _ 0 s = .ok (DENT * s.vacancy dp, s) at hloop
  have hle := (h.offset_lt (vacancy_le s dp)).1
  have hlen := length_bytes ⟨inum, strncpy (fun _ => 0) name DIRSIZ 0⟩
  have hfit : DENT * s.vacancy dp + DENT ≤ MAXFILE * BSIZE := by
    simp only [DENT, MAXFILE, NDIRECT, NINDIRECT, BSIZE] at *
    omega
  rw [← hlen] at hr hfit
  obtain ⟨s', hs, hw⟩ := writei_spec hl h.toReady hle hfit hr
  refine ⟨s', ?_, hw⟩
  rw [dirlink, bind_of_ok (dirlookup_none h hfind)]
  dsimp only
  rw [bind_of_ok (rfl : inode dp s = .ok (s.icache dp, s)), hfuel, bind_of_ok hloop, bind_of_ok hs, hlen,
    if_neg (by decide)]
  rfl

/-! ## Sequences of operations -/

/-- A link, or the removal of an entry as in `sys_unlink`. -/
inductive DirOp
  | link (name : Mem) (inum : Nat)
  | unlink (name : Mem)

def DirOp.target : DirOp → List UInt8
  | link name _ => key name
  | unlink name => key name

def DirOp.run (cf : Conf) (dp : Slot) : DirOp → K Int
  | link name inum => dirlink cf dp name inum
  | unlink name => do
    match ← dirlookup cf dp name with
    | none => pure (-1)
    | some (ip, off) => do
      if (← writei cf dp (List.replicate DENT 0) off) ≠ DENT then panic "unlink: writei"
      else do
        iput cf ip
        pure 0

/-- What the operation does to a map, and what it returns. -/
def DirOp.effect (op : DirOp) (M : List UInt8 → Option Nat) : Int × (List UInt8 → Option Nat) :=
  match op with
  | link name inum => if M (key name) = none then (0, Function.update M (key name) (some inum)) else (-1, M)
  | unlink name => if M (key name) = none then (-1, M) else (0, Function.update M (key name) none)

def replay (M : List UInt8 → Option Nat) : List DirOp → List Int × (List UInt8 → Option Nat)
  | [] => ([], M)
  | op :: ops =>
    let rest := replay (op.effect M).2 ops
    ((op.effect M).1 :: rest.1, rest.2)

/-- The directory is locked and nothing else, and no name is there twice. -/
structure Locked (cf : Conf) (s : State) (dp : Slot) : Prop where
  dir : Dir cf s dp
  cache : Cache cf s
  locks : ∀ q, (s.icache q).locked = decide (q ∈ [dp])
  ref : 0 < (s.icache dp).ref
  valid : (s.icache dp).valid = true
  unique : Table.Unique (cell (s.bytes dp)) (count (s.bytes dp))

theorem Locked.from (h : Locked cf s dp) : From cf s [dp] [] s := .start h.cache h.locks (by simpa using h.ref)

/-- The operation has what it needs: the entry with the name does not refer to the directory itself, and a new
entry fits in the directory and on the disk. -/
def DirOp.Allowed (cf : Conf) (dp : Slot) (s : State) (op : DirOp) : Prop :=
  s.entries dp (op.target) ≠ some (s.icache dp).inum ∧
  match op with
  | link _ inum => 0 < inum ∧ inum < 0x10000 ∧ (s.entries dp (op.target) = none →
      DENT * s.vacancy dp < MAXFILE * BSIZE ∧ Room cf (needs (DENT * s.vacancy dp) DENT) s dp)
  | unlink _ => True

theorem entries_eq_none : s.entries dp (key name) = none ↔ s.find dp name = none := Table.get_eq_none

theorem Dir.of_from (h : Dir cf s dp) (hf : From cf s L hs s') (hc : Cache cf s) (hpos : 0 < (s.icache dp).ref)
    (hv : (s.icache dp).valid = true) : Dir cf s' dp ∧ s'.bytes dp = s.bytes dp := by
  have hx := hf.toDinode_eq hc hpos hv
  exact ⟨h.congr hf.block hf.bufs hx (hf.inums dp hpos), by rw [State.bytes, State.bytes, hf.block, hx]⟩

theorem Locked.of_from (h : Locked cf s dp) (hf : From cf s [dp] hs s') :
    Locked cf s' dp ∧ s'.bytes dp = s.bytes dp := by
  obtain ⟨hdir, hbytes⟩ := h.dir.of_from hf h.cache h.ref h.valid
  refine ⟨⟨hdir, hf.cache, hf.locks, hf.locked_ref dp (mem_singleton_self dp), hf.valids dp h.ref h.valid, ?_⟩, hbytes⟩
  rw [hbytes]
  exact h.unique

theorem Locked.of_written {src : List UInt8} (h : Locked cf s dp) (hw : Written cf dp (DENT * v) src s s')
    (hsrc : src.length = DENT) (hv : v ≤ count (s.bytes dp))
    (hu : Table.Unique (cell (s'.bytes dp)) (count (s'.bytes dp))) : Locked cf s' dp := by
  refine ⟨(hw.dir h.dir hsrc hv).1, hw.toRest.cache h.cache h.ref hw.ready.disk, fun q => ?_, ?_, ?_, hu⟩
  · by_cases hq : q = dp
    · subst hq
      rw [hw.cell]
      exact h.locks q
    · rw [hw.icache q hq]
      exact h.locks q
  · rw [hw.cell]
    exact h.ref
  · rw [hw.cell]
    exact h.valid

theorem Locked.iput (h : Locked cf s dp) (hne : q ≠ dp) (hpos : 0 < (s.icache q).ref)
    (hlive : ¬ ((s.icache q).valid = true ∧ (s.icache q).nlink = 0 ∧ (s.icache q).ref = 1)) :
    ∃ s', iput cf q s = .ok ((), s') ∧ Locked cf s' dp ∧ s'.bytes dp = s.bytes dp ∧
      ∀ r, (s'.icache r).ref = if r = q then (s.icache q).ref - 1 else (s.icache r).ref := by
  have hown := From.own (q := q) h.cache h.locks (by simpa using h.ref) hpos
  obtain ⟨_, s', hrun, hf, -, hsame⟩ := (iput_ends (E := fun _ => False) hown (by simpa using hne) hlive).ok
  have hdp := hsame dp hne.symm
  have hbytes : s'.bytes dp = s.bytes dp := by
    rw [State.bytes, hf.block, hdp]
    rfl
  refine ⟨s', hrun, ⟨h.dir.congr hf.block hf.bufs (by rw [hdp]) (by rw [hdp]), hf.cache, hf.locks, by rw [hdp]; exact h.ref,
    by rw [hdp]; exact h.valid, by rw [hbytes]; exact h.unique⟩, hbytes, fun r => ?_⟩
  rw [hf.refs, count_nil, Nat.add_zero]
  by_cases hr : r = q
  · subst hr
    simp [State.setInode]
  · simp [State.setInode, hr]

theorem spare_congr (h : ∀ q, (s'.icache q).ref = (s.icache q).ref) : spare s' = spare s :=
  Finset.filter_congr fun q _ => by rw [h]

/-- One operation follows its effect on the map. -/
structure DirOp.Follows (cf : Conf) (dp : Slot) (op : DirOp) (s s' : State) : Prop where
  locked : Locked cf s' dp
  refs : ∀ q, (s'.icache q).ref = (s.icache q).ref
  entries : s'.entries dp = (op.effect (s.entries dp)).2
  refused : (op.effect (s.entries dp)).1 = -1 → From cf s [dp] [] s'
  others : ∀ j < count (s.bytes dp), ∀ k i, cell (s.bytes dp) j = some (k, i) → k ≠ op.target →
    chunk (s'.bytes dp) j = chunk (s.bytes dp) j

theorem DirOp.follows_of_from {op : DirOp} (h : Locked cf s dp) (hf : From cf s [dp] [] s')
    (he : (op.effect (s.entries dp)).2 = s.entries dp) : op.Follows cf dp s s' := by
  obtain ⟨hlocked, hbytes⟩ := h.of_from hf
  refine ⟨hlocked, fun q => by simpa using hf.refs q, ?_, fun _ => hf, fun j _ k i _ _ => by rw [hbytes]⟩
  rw [he, State.entries, hbytes, State.entries]

theorem Written.refs {src : List UInt8} (hw : Written cf dp off src s s') (q : Slot) :
    (s'.icache q).ref = (s.icache q).ref := by
  by_cases hq : q = dp
  · subst hq
    rw [hw.cell, Inode.put_ref]
  · rw [hw.icache q hq]

theorem link_spec (hl : cf.Layout) (h : Locked cf s dp) (hspare : 0 < (spare s).card) (ha : (DirOp.link name inum).Allowed cf dp s) :
    ∃ s', (DirOp.link name inum).run cf dp s = .ok (((DirOp.link name inum).effect (s.entries dp)).1, s') ∧
      (DirOp.link name inum).Follows cf dp s s' := by
  obtain ⟨hself, hpos, hlt, hroom⟩ := ha
  cases hfind : s.find dp name with
  | some j =>
    have hentry := entries_of_find hfind
    have hent : ¬ s.entries dp (key name) = none := by simp [hentry]
    have hother : ∀ r ∈ [dp], (s.icache r).inum ≠ s.inumAt dp j := by
      intro r hr hc
      rw [mem_singleton] at hr
      subst hr
      exact hself (hentry.trans (congrArg some hc.symm))
    have hends : Ends (fun _ => False) (dirlink cf dp name inum) s _ :=
      dirlink_found h.dir h.from hfind (.inr hother) (.inr (by simpa using hspare))
    obtain ⟨r, s', hrun, hr, hf⟩ := hends.ok
    subst hr
    refine ⟨s', ?_, DirOp.follows_of_from h hf ?_⟩
    · simp only [DirOp.effect, hent, if_false]
      exact hrun
    · simp only [DirOp.effect, hent, if_false]
  | none =>
    have hent := entries_eq_none.mpr hfind
    obtain ⟨hmax, hr⟩ := hroom hent
    obtain ⟨s', hrun, hw⟩ : ∃ s', dirlink cf dp name inum s = .ok (0, s') ∧ _ := dirlink_new hl h.dir hfind hmax hr
    have hv := vacancy_le s dp
    obtain ⟨-, hbytes⟩ := hw.dir h.dir (length_bytes _) hv
    have hcell := cell_link name (by omega : inum ≠ 0) hlt h.dir.entries_bytes hv
    have hcount := count_putEntry (length_bytes ⟨inum, strncpy (fun _ => 0) name DIRSIZ 0⟩) h.dir.entries_bytes hv
    have hempty : s.vacancy dp < count (s.bytes dp) → cell (s.bytes dp) (s.vacancy dp) = none := Table.empty_of_vacancy
    have hu : Table.Unique (cell (s'.bytes dp)) (count (s'.bytes dp)) := by
      rw [hbytes, hcell, hcount]
      exact h.unique.insert hempty hv hfind
    refine ⟨s', ?_, h.of_written hw (length_bytes _) hv hu, hw.refs, ?_, fun hc => ?_, fun j hj k i hc _ => ?_⟩
    · simp only [DirOp.effect, hent, if_true]
      exact hrun
    · simp only [DirOp.effect, hent, if_true]
      rw [State.entries, hbytes, hcell, hcount]
      exact h.unique.get_insert hempty hv hfind
    · simp [DirOp.effect, hent] at hc
    · rw [hbytes, chunk_putEntry_of_ne (length_bytes _) h.dir.entries_bytes hv]
      rintro rfl
      rw [hempty hj] at hc
      cases hc

theorem Ready.room {ip : Slot} (h : Ready cf s ip) (hoff : off + n ≤ (s.icache ip).size) : Room cf (needs off n) s ip := by
  have hsub : needs off n ⊆ refSet s.block (s.icache ip).addrs := by
    intro k hk
    obtain ⟨j, hj, hp⟩ := Finset.mem_biUnion.mp hk
    rw [Finset.mem_Ico] at hj
    exact mem_refSet.mpr (h.full.place (by omega) hp)
  rw [Room, Finset.sdiff_eq_empty_iff_subset.mpr hsub]
  exact Nat.zero_le _

theorem unlink_spec (hl : cf.Layout) (h : Locked cf s dp) (hspare : 0 < (spare s).card) (ha : (DirOp.unlink name).Allowed cf dp s) :
    ∃ s', (DirOp.unlink name).run cf dp s = .ok (((DirOp.unlink name).effect (s.entries dp)).1, s') ∧
      (DirOp.unlink name).Follows cf dp s s' := by
  obtain ⟨hself, -⟩ := ha
  cases hfind : s.find dp name with
  | none =>
    have hent := entries_eq_none.mpr hfind
    refine ⟨s, ?_, DirOp.follows_of_from h h.from ?_⟩
    · simp only [DirOp.effect, hent, if_true, DirOp.run]
      rw [bind_of_ok (dirlookup_none h.dir hfind)]
      rfl
    · simp only [DirOp.effect, hent, if_true]
  | some j =>
    have hentry := entries_of_find hfind
    have hent : ¬ s.entries dp (key name) = none := by simp [hentry]
    obtain ⟨hj, hcj⟩ := cell_of_find hfind
    obtain ⟨r, s1, hrun, q, rfl, hf1, hinum, hold, hshared, hsame⟩ :=
      (dirlookup_ends (E := fun _ => False) h.dir h.from hfind (.inr (by simpa using hspare))).ok
    -- The inode is another one than the directory.
    have hne : q ≠ dp := by
      rintro rfl
      exact hself (hentry.trans (congrArg some (hold h.ref).symm))
    obtain ⟨h1, hbytes1⟩ := h.of_from hf1
    have hle : DENT * j + DENT ≤ (s1.icache dp).size := by
      rw [h1.dir.size_eq, hbytes1]
      exact Nat.mul_le_mul_left DENT hj
    have hmax := h1.dir.full.size_le
    have hjle : j ≤ count (s1.bytes dp) := by
      rw [hbytes1]
      omega
    obtain ⟨s2, hrun2, hw⟩ : ∃ s2, writei cf dp (List.replicate DENT 0) (DENT * j) s1 = _ ∧ _ :=
      writei_spec hl h1.dir.toReady (by omega) (by rw [length_replicate]; omega)
        (by rw [length_replicate]; exact h1.dir.toReady.room hle)
    obtain ⟨-, hbytes2⟩ := hw.dir h1.dir length_replicate hjle
    rw [hbytes1] at hbytes2
    have hcell := cell_zero h.dir.entries_bytes (Nat.le_of_lt hj)
    have hcount : count (putEntry (s.bytes dp) j (List.replicate DENT 0)) = count (s.bytes dp) := by
      rw [count_putEntry length_replicate h.dir.entries_bytes (Nat.le_of_lt hj)]
      omega
    have h2 : Locked cf s2 dp := h1.of_written hw length_replicate hjle (by
      rw [hbytes2, hcell, hcount]
      exact h.unique.clear j)
    have hq2 : s2.icache q = s1.icache q := hw.icache q hne
    have hpos1 := hf1.held_ref (mem_singleton_self q)
    obtain ⟨s3, hrun3, h3, hbytes3, hrefs3⟩ := h2.iput hne (by rw [hq2]; exact hpos1) fun hc => by
      rw [hq2] at hc
      have := hshared hc.1
      omega
    rw [hbytes2] at hbytes3
    refine ⟨s3, ?_, h3, fun r => ?_, ?_, fun hc => ?_, fun l hl k i hc hk => ?_⟩
    · simp only [DirOp.effect, hent, if_false, DirOp.run]
      rw [bind_of_ok hrun]
      dsimp only
      rw [bind_of_ok hrun2, length_replicate, if_neg (by decide), bind_of_ok hrun3]
      rfl
    · have href1 := hf1.refs r
      rw [hrefs3 r]
      by_cases hr : r = q
      · subst hr
        rw [count_singleton_self] at href1
        rw [if_pos rfl, hw.refs]
        omega
      · rw [if_neg hr, hw.refs, href1, count_singleton, if_neg (by simpa using Ne.symm hr), Nat.add_zero]
    · simp only [DirOp.effect, hent, if_false]
      rw [State.entries, hbytes3, hcell, hcount]
      exact h.unique.get_clear hfind
    · simp [DirOp.effect, hent] at hc
    · rw [hbytes3, chunk_putEntry_of_ne length_replicate h.dir.entries_bytes (Nat.le_of_lt hj)]
      rintro rfl
      rw [hcj] at hc
      cases hc
      exact hk rfl

/-- Operations that have what they need, one after the other, with what they return. -/
inductive DirRun (cf : Conf) (dp : Slot) : State → List DirOp → List Int → State → Prop
  | nil (s : State) : DirRun cf dp s [] [] s
  | cons {s s1 s2 : State} {op : DirOp} {r : Int} {ops : List DirOp} {rs : List Int} :
      op.Allowed cf dp s → op.run cf dp s = .ok (r, s1) → DirRun cf dp s1 ops rs s2 → DirRun cf dp s (op :: ops) (r :: rs) s2

theorem DirOp.run_spec (hl : cf.Layout) (h : Locked cf s dp) (hspare : 0 < (Disk.spare s).card) {op : DirOp}
    (ha : op.Allowed cf dp s) :
    ∃ s', op.run cf dp s = .ok ((op.effect (s.entries dp)).1, s') ∧ op.Follows cf dp s s' := by
  cases op with
  | link name inum => exact link_spec hl h hspare ha
  | unlink name => exact unlink_spec hl h hspare ha

theorem DirRun.spec (hl : cf.Layout) {ops : List DirOp} {rs : List Int} (hrun : DirRun cf dp s ops rs s')
    (h : Locked cf s dp) (hspare : 0 < (Disk.spare s).card) :
    Locked cf s' dp ∧ 0 < (Disk.spare s').card ∧ replay (s.entries dp) ops = (rs, s'.entries dp) := by
  induction hrun with
  | nil s => exact ⟨h, hspare, rfl⟩
  | cons ha hstep _ ih =>
    obtain ⟨s1, hs1, hfol⟩ := DirOp.run_spec hl h hspare ha
    rw [hs1] at hstep
    cases hstep
    obtain ⟨h2, hspare2, hrep⟩ := ih hfol.locked (by rw [spare_congr hfol.refs]; exact hspare)
    refine ⟨h2, hspare2, ?_⟩
    rw [replay, ← hfol.entries, hrep]

/-- A directory is a map on names. After every sequence of operations, the entries are those of the map, so are
the results, `dirlookup` finds them, and each further operation changes what the map says and nothing else. -/
theorem directory_map (hl : cf.Layout) (h : Locked cf s dp) (hspare : 0 < (spare s).card) {ops : List DirOp}
    {rs : List Int} (hrun : DirRun cf dp s ops rs s') :
    (rs, s'.entries dp) = replay (s.entries dp) ops ∧
    Table.Unique (cell (s'.bytes dp)) (count (s'.bytes dp)) ∧
    (∀ name, ∃ r s1, dirlookup cf dp name s' = .ok (r, s1) ∧
      r.map (fun p => (s1.icache p.1).inum) = (replay (s.entries dp) ops).2 (key name)) ∧
    ∀ op : DirOp, op.Allowed cf dp s' → ∃ r s1, op.run cf dp s' = .ok (r, s1) ∧
      (r, s1.entries dp) = op.effect (s'.entries dp) ∧ (r = -1 → From cf s' [dp] [] s1) ∧
      ∀ j < count (s'.bytes dp), ∀ k i, cell (s'.bytes dp) j = some (k, i) → k ≠ op.target →
        chunk (s1.bytes dp) j = chunk (s'.bytes dp) j := by
  obtain ⟨h', hspare', hrep⟩ := hrun.spec hl h hspare
  refine ⟨hrep.symm, h'.unique, fun name => ?_, fun op ha => ?_⟩
  · have hmap : (replay (s.entries dp) ops).2 = s'.entries dp := by rw [hrep]
    rw [hmap]
    cases hfind : s'.find dp name with
    | none =>
      rw [entries_eq_none.mpr hfind]
      exact ⟨none, s', dirlookup_none h'.dir hfind, rfl⟩
    | some j =>
      rw [entries_of_find hfind]
      obtain ⟨r, s1, hlook, q, rfl, -, hinum, -⟩ :=
        (dirlookup_ends (E := fun _ => False) h'.dir h'.from hfind (.inr (by simpa using hspare'))).ok
      exact ⟨_, s1, hlook, congrArg some hinum⟩
  · obtain ⟨s1, hs1, hfol⟩ := op.run_spec hl h' hspare' ha
    exact ⟨_, s1, hs1, by rw [hfol.entries], hfol.refused, hfol.others⟩

/-- The root directory of the small disk is locked. -/
def rootLocked : State := fresh.setInode rootSlot { fresh.icache rootSlot with locked := true }

theorem rootLocked_ref : ∀ q, 0 < (rootLocked.icache q).ref → q = rootSlot := by decide

theorem rootLocked_names : ∀ i < count (rootLocked.bytes rootSlot), ∀ j < count (rootLocked.bytes rootSlot),
    (cell (rootLocked.bytes rootSlot) i).isSome → (cell (rootLocked.bytes rootSlot) i).map Prod.fst =
      (cell (rootLocked.bytes rootSlot) j).map Prod.fst → i = j := by
  decide +kernel

theorem rootLocked_locked : Locked sample rootLocked rootSlot := by
  have hready : Ready sample rootLocked rootSlot :=
    ⟨⟨fresh_open.inum, fresh_open.type, fresh_open.sound⟩, rfl, dinode_root, root_full, by decide⟩
  refine ⟨⟨hready, rfl, rfl⟩, ⟨fun q r hq hr _ => ?_, fun q hq _ => ?_⟩, by decide, by decide, rfl, fun i hi j hj k h1 h2 => ?_⟩
  · rw [rootLocked_ref q hq, rootLocked_ref r hr]
  · rw [rootLocked_ref q hq]
    exact ⟨by decide, dinode_root.symm, by decide⟩
  · refine rootLocked_names i hi j hj ?_ (h1.trans h2.symm)
    obtain ⟨x, hx⟩ := Table.holds_iff.mp h1
    rw [hx]
    rfl

/-- The name `a`. -/
def nameA : Mem := fun i => if i = 0 then 97 else 0

theorem directory_map_root : ∃ s', DirRun sample rootSlot rootLocked [.link nameA 5] [0] s' ∧
    s'.entries rootSlot [97] = some 5 ∧ s'.entries rootSlot [46] = some ROOTINO := by
  have hspare : 0 < (spare rootLocked).card := by decide +kernel
  have hallowed : (DirOp.link nameA 5).Allowed sample rootSlot rootLocked :=
    ⟨by decide +kernel, by decide, by decide, fun _ => by unfold Room; decide +kernel⟩
  obtain ⟨r, s1, hs1, heff, -⟩ := (directory_map sample_layout rootLocked_locked hspare (.nil _)).2.2.2 _ hallowed
  have hnone : rootLocked.entries rootSlot (key nameA) = none := by decide +kernel
  have hkey : key nameA = [97] := by decide
  have hdot : rootLocked.entries rootSlot [46] = some ROOTINO := by decide +kernel
  rw [DirOp.effect, if_pos hnone, Prod.mk.injEq, hkey] at heff
  obtain ⟨rfl, hent⟩ := heff
  refine ⟨s1, .cons hallowed hs1 (.nil _), ?_, ?_⟩
  · rw [hent, Function.update_self]
  · rw [hent, Function.update_of_ne (by decide), hdot]

/-- The entry refers to the directory itself: `iput` waits for a lock that the process holds. -/
theorem dirlink_dot_blocks : rootLocked.entries rootSlot (key (dotName 1)) = some ROOTINO ∧
    dirlink sample rootSlot (dotName 1) 5 rootLocked = .error .block := ⟨by decide +kernel, rfl⟩

end Xv6.Disk
