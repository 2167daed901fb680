import Xv6.Disk.Path

/-!
# Following a path

On a disk whose directories are in order, `namex` ends at the inode that the elements of the path
lead to, with one reference to it and no other change.
-/

open Xv6.Bytes Xv6.Cmd List

namespace Xv6.Disk

variable {cf : Conf} {block : Nat → Block} {s0 s s' s1 : State} {L hs : List Slot} {q r ip : Slot} {i j k n : Nat}
  {E : Stop → Prop} {name : Mem} {path : List UInt8} {np : Bool} {c : List UInt8} {cs : List (List UInt8)}
  {p : Fin NPROC}

/-! ## Directories on disk -/

/-- A directory with whole entries, all of its blocks, and entries for inodes. -/
structure DirOk (cf : Conf) (block : Nat → Block) (d : Dinode) : Prop where
  full : Full block d
  entries : d.size % DENT = 0
  inums : ∀ j < count (contents block d), ∀ k i, cell (contents block d) j = some (k, i) → i < cf.ninodes

/-- Blocks have one owner, and the directories are in order. -/
structure DiskOk (cf : Conf) (block : Nat → Block) : Prop where
  sound : Sound cf block (dinode cf block)
  dirs : ∀ i < cf.ninodes, (dinode cf block i).type = T_DIR → DirOk cf block (dinode cf block i)

/-- An inode that no directory entry counts is held by someone. -/
def Held (cf : Conf) (s : State) : Prop :=
  ∀ i < cf.ninodes, (dinode cf s.block i).type ≠ 0 → (dinode cf s.block i).nlink = 0 →
    ∃ q, 0 < (s.icache q).ref ∧ (s.icache q).inum = i

theorem From.dir (h : From cf s0 L hs s) (hd : DiskOk cf s0.block) (hbufs : s0.bufs = []) (hpos : 0 < (s.icache q).ref)
    (hv : (s.icache q).valid = true) (ht : (s.icache q).type = T_DIR) : Dir cf s q := by
  obtain ⟨h1, h2, h3⟩ := h.cache.loaded q hpos hv
  have hview : view cf s q = dinode cf s.block := view_eq h2.symm
  have hdir : DirOk cf s.block (dinode cf s.block (s.icache q).inum) := by
    rw [h.block] at h2 ⊢
    exact hd.dirs _ h1 (by rw [← h2]; exact ht)
  rw [← h2] at hdir
  refine ⟨⟨⟨h1, h3, by rw [hview, h.block]; exact hd.sound⟩, h.bufs.trans hbufs, h2.symm, hdir.full, ?_⟩, ht, hdir.entries⟩
  rw [ht]
  decide

theorem From.live (h : From cf s0 L (q :: hs) s) (hh : Held cf s0) :
    ¬ ((s.icache q).valid = true ∧ (s.icache q).nlink = 0 ∧ (s.icache q).ref = 1) := by
  rintro ⟨hv, hn, hone⟩
  have hpos := h.held_ref (mem_cons_self ..)
  obtain ⟨h1, h2, h3⟩ := h.cache.loaded q hpos hv
  rw [h2, h.block] at hn h3
  obtain ⟨r, hr, hi⟩ := hh _ h1 h3 hn
  have hr' : 0 < (s.icache r).ref := by
    rw [h.refs]
    omega
  obtain rfl := h.cache.unique r q hr' hpos (by rw [h.inums r hr, hi])
  have := h.refs r
  rw [count_cons_self] at this
  omega

theorem iunlockput_ends (h : From cf s0 (q :: L) (q :: hs) s) (hq : q ∉ L) (hh : Held cf s0) :
    Ends E (iunlockput cf q) s fun _ s' => From cf s0 L hs s' ∧ ∀ r, (s'.icache r).inum = (s.icache r).inum := by
  unfold iunlockput
  refine (iunlock_ends h hq).bind fun _ s1 ⟨h1, hi1, _, ho1⟩ => ?_
  refine (iput_ends h1 hq (h1.live hh)).imp fun _ s2 ⟨h2, hi2, ho2⟩ => ⟨h2, fun r => ?_⟩
  by_cases hr : r = q
  · subst hr
    rw [hi2, hi1]
  · rw [ho2 r hr, ho1 r hr]

/-! ## Where a path leads -/

/-- The entries of a directory on disk. -/
def dirEntries (cf : Conf) (block : Nat → Block) (i : Nat) : List UInt8 → Option Nat :=
  Table.get (cell (contents block (dinode cf block i))) (count (contents block (dinode cf block i)))

/-- One element: the inode has to be a directory with an entry for it. -/
def follow (cf : Conf) (block : Nat → Block) (i : Nat) (c : List UInt8) : Option Nat :=
  if (dinode cf block i).type = T_DIR then dirEntries cf block i c else none

/-- The inode that the elements lead to. -/
def walk (cf : Conf) (block : Nat → Block) : Nat → List (List UInt8) → Option Nat
  | i, [] => some i
  | i, c :: cs => (follow cf block i c).bind fun j => walk cf block j cs

/-- The directory that the last element is to be found in. -/
def walkParent (cf : Conf) (block : Nat → Block) (i : Nat) (cs : List (List UInt8)) : Option Nat :=
  if cs = [] then none
  else (walk cf block i cs.dropLast).filter fun j => (dinode cf block j).type = T_DIR

/-- None of the inodes that are searched is free. -/
def Alive (cf : Conf) (block : Nat → Block) : Nat → List (List UInt8) → Prop
  | _, [] => True
  | i, c :: cs => (dinode cf block i).type ≠ 0 ∧ ∀ j, follow cf block i c = some j → Alive cf block j cs

/-- The inode that `namex` returns. -/
def resolve (cf : Conf) (block : Nat → Block) (np : Bool) (i : Nat) (cs : List (List UInt8)) : Option Nat :=
  if np then walkParent cf block i cs else walk cf block i cs

theorem resolve_nil : resolve cf block np i [] = if np then none else some i := by
  cases np <;> rfl

theorem resolve_cons (h : np = false ∨ cs ≠ []) :
    resolve cf block np i (c :: cs) = (follow cf block i c).bind fun j => resolve cf block np j cs := by
  cases np with
  | false => rfl
  | true =>
    obtain ⟨b, bs, rfl⟩ := exists_cons_of_ne_nil (h.resolve_left (by decide))
    simp only [resolve, walkParent, if_true, cons_ne_nil, if_false, dropLast_cons₂, walk]
    cases follow cf block i c <;> rfl

theorem resolve_last : resolve cf block true i [c] = if (dinode cf block i).type = T_DIR then some i else none := by
  simp only [resolve, walkParent, if_true, cons_ne_nil, if_false, dropLast_singleton, walk]
  by_cases h : (dinode cf block i).type = T_DIR <;> simp [h, Option.filter]

theorem DiskOk.follow_lt (hd : DiskOk cf block) (hi : i < cf.ninodes) (h : follow cf block i c = some j) :
    j < cf.ninodes := by
  unfold follow at h
  split at h
  · next ht =>
    unfold dirEntries Table.get at h
    cases hx : Table.index (cell (contents block (dinode cf block i))) (count (contents block (dinode cf block i))) c with
    | none => simp [hx] at h
    | some m =>
      obtain ⟨hm, hk⟩ := Table.index_mem hx
      obtain ⟨x, hcell⟩ := Table.holds_iff.mp hk
      have : x = j := by simpa [hx, hcell] using h
      exact this ▸ (hd.dirs i hi ht).inums m hm c x hcell
  · cases h

theorem DiskOk.walk_lt (hd : DiskOk cf block) (hi : i < cf.ninodes) (h : walk cf block i cs = some j) : j < cf.ninodes := by
  induction cs generalizing i with
  | nil =>
    obtain rfl := Option.some.inj h
    exact hi
  | cons c cs ih =>
    obtain ⟨m, hm, hw⟩ := Option.bind_eq_some_iff.mp h
    exact ih (hd.follow_lt hi hm) hw

theorem DiskOk.walkParent_some (hd : DiskOk cf block) (hi : i < cf.ninodes) (h : walkParent cf block i cs = some j) :
    j < cf.ninodes ∧ (dinode cf block j).type = T_DIR := by
  unfold walkParent at h
  split at h
  · cases h
  · obtain ⟨hw, ht⟩ := Option.filter_eq_some_iff.mp h
    exact ⟨hd.walk_lt hi hw, by simpa using ht⟩

/-! ## `namex` -/

/-- The result of `namex`: a reference to the inode, or nothing. -/
def Found (cf : Conf) (s0 : State) (hs : List Slot) (np : Bool) (i : Nat) (cs : List (List UInt8))
    (r : Option (Slot × Mem)) (s' : State) : Prop :=
  match resolve cf s0.block np i cs with
  | none => r = none ∧ From cf s0 [] hs s'
  | some j => ∃ q name, r = some (q, name) ∧ From cf s0 [] (q :: hs) s' ∧ (s'.icache q).inum = j ∧
      (np = true → cs.getLast? = some (key name))

theorem Found.cons {res : Option (Slot × Mem)} (hcons : np = false ∨ cs ≠ []) (hf : follow cf s0.block i c = some j)
    (h : Found cf s0 hs np j cs res s') : Found cf s0 hs np i (c :: cs) res s' := by
  unfold Found at h ⊢
  rw [resolve_cons hcons, hf, Option.bind_some]
  split at h
  · exact h
  · obtain ⟨q, nm, hr, hfrom, hj, hname⟩ := h
    refine ⟨q, nm, hr, hfrom, hj, fun hnp => ?_⟩
    rw [List.getLast?_cons_of_ne_nil (hcons.resolve_left (by rw [hnp]; decide)), hname hnp]

theorem Found.missing (hcons : np = false ∨ cs ≠ []) (hf : follow cf s0.block i c = none) (h : From cf s0 [] hs s') :
    Found cf s0 hs np i (c :: cs) none s' := by
  unfold Found
  rw [resolve_cons hcons, hf]
  exact ⟨rfl, h⟩

theorem Found.notDir (ht : (dinode cf s0.block i).type ≠ T_DIR) (h : From cf s0 [] hs s') :
    Found cf s0 hs np i (c :: cs) none s' := by
  by_cases hcons : np = false ∨ cs ≠ []
  · exact .missing hcons (if_neg ht) h
  · rw [not_or, not_not, Bool.not_eq_false] at hcons
    unfold Found
    rw [hcons.1, hcons.2, resolve_last, if_neg ht]
    exact ⟨rfl, h⟩

theorem namexLoop_ends (hd : DiskOk cf s0.block) (hbufs : s0.bufs = []) (hh : Held cf s0)
    (hroom : E (.panic "iget: no inodes") ∨ hs.length + 1 < (spare s0).card) (k : Nat) (hk : path.length < k)
    (h : From cf s0 [] (ip :: hs) s) (hi : (s.icache ip).inum = i) (hlt : i < cf.ninodes) (h0 : 0 ∉ path)
    (halive : E (.panic "ilock: no type") ∨ Alive cf s0.block i (components path)) :
    Ends E (namexLoop cf np k ip path name) s (Found cf s0 hs np i (components path)) := by
  induction k generalizing path ip s i name with
  | zero => omega
  | succ k ih =>
    rw [namexLoop]
    rcases skipelem_spec h0 name with ⟨hskip, hcomp⟩ | ⟨rest, name', hskip, hcomp, hrest0, hlen, hhead⟩
    · -- The path has come to its end.
      rw [hskip, hcomp]
      dsimp only
      unfold Found
      rw [resolve_nil]
      cases np with
      | true =>
        refine (iput_ends h not_mem_nil (h.live hh)).bind ?_
        rintro _ s1 ⟨h1, -⟩
        exact ends_pure ⟨rfl, h1⟩
      | false => exact ends_pure ⟨ip, name, rfl, h, hi, fun hc => by cases hc⟩
    · rw [hskip, hcomp]
      rw [hcomp] at halive
      dsimp only
      have hpos := h.held_ref (mem_cons_self ..)
      have htype : E (.panic "ilock: no type") ∨ (dinode cf s.block (s.icache ip).inum).type ≠ 0 := by
        rw [hi, h.block]
        exact halive.imp_right fun ha => ha.1
      refine (ilock_ends h hbufs hpos not_mem_nil (by rw [hi]; exact hlt) htype).bind ?_
      rintro _ s1 ⟨h1, hv1, hi1, -⟩
      refine ends_bind_of_ok (rfl : inode ip s1 = .ok (s1.icache ip, s1)) ?_
      have hpos1 := h1.held_ref (mem_cons_self ..)
      have hdata : (s1.icache ip).toDinode = dinode cf s0.block i := by
        rw [(h1.cache.loaded ip hpos1 hv1).data, h1.block, hi1, hi]
      by_cases ht : (s1.icache ip).type = T_DIR
      · rw [if_neg (not_not.mpr ht)]
        have hisdir : (dinode cf s0.block i).type = T_DIR := by rw [← hdata, ht]
        have hdir := h1.dir hd hbufs hpos1 hv1 ht
        by_cases hlast : np = true ∧ head rest = 0
        · -- The parent stops here.
          rw [if_pos hlast]
          refine (iunlock_ends h1 not_mem_nil).bind ?_
          rintro _ s2 ⟨h2, hi2, -⟩
          refine ends_pure ?_
          unfold Found
          rw [hhead.mp hlast.2, hlast.1, resolve_last, if_pos hisdir]
          exact ⟨ip, name', rfl, h2, by rw [hi2, hi1, hi], fun _ => rfl⟩
        · rw [if_neg hlast]
          have hcons : np = false ∨ components rest ≠ [] := by
            cases np with
            | false => exact .inl rfl
            | true => exact .inr fun hc => hlast ⟨rfl, hhead.mpr hc⟩
          have hbytes : s1.bytes ip = contents s0.block (dinode cf s0.block i) := by
            rw [State.bytes, h1.block, hdata]
          have hfollow : follow cf s0.block i (key name') = s1.entries ip (key name') := by
            rw [follow, if_pos hisdir, dirEntries, State.entries, hbytes]
          cases hfind : s1.find ip name' with
          | none =>
            refine ends_bind_of_ok (dirlookup_none hdir hfind) ?_
            dsimp only
            refine (iunlockput_ends h1 not_mem_nil hh).bind ?_
            rintro _ s2 ⟨h2, -⟩
            exact ends_pure (.missing hcons (hfollow.trans (entries_eq_none.mpr hfind)) h2)
          | some m =>
            have hent := hfollow.trans (entries_of_find hfind)
            refine (dirlookup_ends hdir h1 hfind (hroom.imp_right fun hr => by simpa using hr)).bind ?_
            rintro r s2 ⟨q, rfl, h2, hq2, -⟩
            dsimp only
            refine (iunlockput_ends (h2.reorder (List.Perm.swap q ip hs)) not_mem_nil hh).bind ?_
            rintro _ s3 ⟨h3, hi3⟩
            exact (ih (by omega) h3 ((hi3 q).trans hq2) (hd.follow_lt hlt hent) hrest0
              (halive.imp_right fun ha => ha.2 _ hent)).imp fun r s' => .cons hcons hent
      · rw [if_pos ht]
        refine (iunlockput_ends h1 not_mem_nil hh).bind ?_
        rintro _ s2 ⟨h2, -⟩
        exact ends_pure (.notDir (by rw [← hdata]; exact ht) h2)

/-- The file system is in order, and the inodes in the slots `L` are locked. -/
structure InOrder (cf : Conf) (L : List Slot) (s : State) : Prop where
  disk : DiskOk cf s.block
  cache : Cache cf s
  bufs : s.bufs = []
  held : Held cf s
  root : ROOTINO < cf.ninodes
  locks : ∀ q, (s.icache q).locked = decide (q ∈ L)
  locked_ref : ∀ q ∈ L, 0 < (s.icache q).ref
  bound : ∀ q, 0 < (s.icache q).ref → (s.icache q).inum < cf.ninodes
  cwd : ∀ p, 0 < (s.icache (s.proc p).cwd).ref

theorem InOrder.from (h : InOrder cf L s) : From cf s L [] s := .start h.cache h.locks h.locked_ref

theorem From.inOrder {L' : List Slot} (hf : From cf s0 L hs s) (h : InOrder cf L' s0)
    (hb : ∀ q ∈ hs, (s.icache q).inum < cf.ninodes) : InOrder cf L s where
  disk := by rw [hf.block]; exact h.disk
  cache := hf.cache
  bufs := hf.bufs.trans h.bufs
  held i hi ht hn := by
    rw [hf.block] at ht hn
    obtain ⟨q, hq, hqi⟩ := h.held i hi ht hn
    refine ⟨q, ?_, by rw [hf.inums q hq, hqi]⟩
    rw [hf.refs]
    omega
  root := h.root
  locks := hf.locks
  locked_ref := hf.locked_ref
  bound q hq := by
    by_cases h0 : 0 < (s0.icache q).ref
    · rw [hf.inums q h0]
      exact h.bound q h0
    · refine hb q (count_pos_iff.mp ?_)
      have := hf.refs q
      omega
  cwd p := by
    have hproc : s.proc = s0.proc := by rw [hf.same]
    have := h.cwd p
    rw [hproc, hf.refs]
    omega

/-- The inode that a path starts from. -/
def State.origin (s : State) (p : Fin NPROC) (path : List UInt8) : Nat :=
  if head path = slash then ROOTINO else (s.icache (s.proc p).cwd).inum

theorem namex_ends (h : InOrder cf [] s) (hroom : E (.panic "iget: no inodes") ∨ 2 ≤ (spare s).card) (h0 : 0 ∉ path)
    (halive : E (.panic "ilock: no type") ∨ Alive cf s.block (s.origin p path) (components path)) :
    Ends E (namex cf p path np name) s (Found cf s [] np (s.origin p path) (components path)) := by
  have hroom1 : E (.panic "iget: no inodes") ∨ ([] : List Slot).length + 1 < (spare s).card :=
    hroom.imp_right fun hr => Nat.lt_of_lt_of_le (by decide) hr
  unfold namex
  unfold State.origin at halive ⊢
  by_cases hslash : head path = slash
  · rw [if_pos hslash] at halive ⊢
    rw [if_pos hslash]
    refine (iget_ends h.from ROOTINO (hroom.imp_right fun hr => Nat.lt_of_lt_of_le (by decide) hr)).bind fun q s1 ⟨h1, hi1, _⟩ => ?_
    exact namexLoop_ends h.disk h.bufs h.held hroom1 _ (Nat.lt_succ_self _) h1 hi1 h.root h0 halive
  · rw [if_neg hslash] at halive ⊢
    rw [if_neg hslash]
    refine ends_bind_of_ok (rfl : cwd p s = .ok ((s.proc p).cwd, s)) ?_
    refine (idup_ends h.from (h.cwd p)).bind fun _ s1 ⟨h1, hi1⟩ => ?_
    exact namexLoop_ends h.disk h.bufs h.held hroom1 _ (Nat.lt_succ_self _) h1 hi1 (h.bound _ (h.cwd p)) h0 halive

theorem InOrder.origin_lt (h : InOrder cf L s) (p : Fin NPROC) (path : List UInt8) : s.origin p path < cf.ninodes := by
  unfold State.origin
  split
  · exact h.root
  · exact h.bound _ (h.cwd p)

section Names

variable (h : InOrder cf [] s) (hroom : E (.panic "iget: no inodes") ∨ 2 ≤ (spare s).card) (h0 : 0 ∉ path)
  (halive : E (.panic "ilock: no type") ∨ Alive cf s.block (s.origin p path) (components path))

include h hroom h0 halive

theorem namei_ends : Ends E (namei cf p path) s fun r s' =>
    (r = none ∧ walk cf s.block (s.origin p path) (components path) = none ∧ From cf s [] [] s') ∨
    ∃ q, r = some q ∧ walk cf s.block (s.origin p path) (components path) = some (s'.icache q).inum ∧
      (s'.icache q).inum < cf.ninodes ∧ From cf s [] [q] s' := by
  unfold namei
  have hends : Ends E (namex cf p path false fun _ => 0) s _ := namex_ends h hroom h0 halive
  refine hends.bind fun r s' hfound => ends_pure ?_
  unfold Found at hfound
  change match walk cf s.block (s.origin p path) (components path) with | none => _ | some i => _ at hfound
  split at hfound
  · next hnone => exact .inl ⟨by rw [hfound.1]; rfl, hnone, hfound.2⟩
  · next i hsome =>
    obtain ⟨q, nm, rfl, hf, rfl, -⟩ := hfound
    exact .inr ⟨q, rfl, hsome, h.disk.walk_lt (h.origin_lt p path) hsome, hf⟩

theorem nameiparent_ends : Ends E (nameiparent cf p path name) s fun r s' =>
    (r = none ∧ walkParent cf s.block (s.origin p path) (components path) = none ∧ From cf s [] [] s') ∨
    ∃ q name', r = some (q, name') ∧
      walkParent cf s.block (s.origin p path) (components path) = some (s'.icache q).inum ∧
      (components path).getLast? = some (key name') ∧ (s'.icache q).inum < cf.ninodes ∧
      (dinode cf s.block (s'.icache q).inum).type = T_DIR ∧ From cf s [] [q] s' := by
  unfold nameiparent
  have hends : Ends E (namex cf p path true name) s _ := namex_ends h hroom h0 halive
  refine hends.imp fun r s' hfound => ?_
  unfold Found at hfound
  change match walkParent cf s.block (s.origin p path) (components path) with | none => _ | some i => _ at hfound
  split at hfound
  · next hnone => exact .inl ⟨hfound.1, hnone, hfound.2⟩
  · next i hsome =>
    obtain ⟨q, nm, hr, hf, rfl, hname⟩ := hfound
    obtain ⟨hlt, ht⟩ := h.disk.walkParent_some (h.origin_lt p path) hsome
    exact .inr ⟨q, nm, hr, hsome, hname rfl, hlt, ht, hf⟩

end Names

theorem root_entries : ∀ j < count (contents image rootInode), ∀ x ∈ cell (contents image rootInode) j, x.2 < sample.ninodes := by
  decide +kernel

theorem fresh_ref : ∀ q, 0 < (fresh.icache q).ref → q = rootSlot := by decide

theorem image_root (hi : i < sample.ninodes) (ht : (dinode sample image i).type ≠ 0) : i = ROOTINO := by
  by_contra h
  exact ht (dinode_image_type hi h)

theorem image_ok : DiskOk sample image := by
  refine ⟨image_sound, fun i hi ht => ?_⟩
  obtain rfl := image_root hi (by rw [ht]; decide)
  rw [dinode_root]
  exact ⟨root_full, rfl, fun j hj k i hc => root_entries j hj (k, i) hc⟩

theorem fresh_inOrder : InOrder sample [] fresh := by
  refine ⟨image_ok, ⟨fun q r hq hr _ => ?_, fun q hq _ => ?_⟩, rfl, fun i hi ht hn => ?_, by decide, by decide, by decide, by decide,
    fun _ => (by decide : 0 < (fresh.icache rootSlot).ref)⟩
  · rw [fresh_ref q hq, fresh_ref r hr]
  · rw [fresh_ref q hq]
    exact ⟨by decide, dinode_root.symm, by decide⟩
  · obtain rfl := image_root hi ht
    exact ⟨rootSlot, by decide, rfl⟩

theorem nproc_pos : 0 < NPROC := by decide

def initProc : Fin NPROC := ⟨0, nproc_pos⟩

/-- The path `/..`. -/
def rootParent : List UInt8 := [slash, 46, 46]

/-- The inode 2, a directory that was removed. Its parent, the inode 3, was removed too and is free. -/
def strayInode : Dinode where
  type := T_DIR
  major := 0
  minor := 0
  nlink := 0
  size := 2 * DENT
  addrs i := if i.val = 0 then 6 else 0

def strayEntries : List UInt8 := Dirent.bytes ⟨2, dotName 1⟩ ++ Dirent.bytes ⟨3, dotName 2⟩

/-- The current directory of the processes is the inode 2. -/
def stray : State :=
  { fresh with
    block := putInode sample (Function.update (Function.update image 4 fun j => if j = 0 then 127 else 0) 6
      fun j => strayEntries.getD j 0) 2 strayInode
    icache := Function.update fresh.icache ⟨1, by decide⟩
      { strayInode with inum := 2, ref := 1, locked := false, valid := true }
    proc := fun _ => ⟨fun _ => none, ⟨1, by decide⟩⟩ }

/-- The path `../x`. -/
def strayPath : List UInt8 := [46, 46, slash, 120]

end Xv6.Disk
