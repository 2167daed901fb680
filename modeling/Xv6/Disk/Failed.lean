import Xv6.Disk.Keeps
import Xv6.Disk.Order

/-!
# Calls that fail

A call on names that returns -1 has left the disk as it was, where nothing else was wrong before. The
exception is `sys_open`, which creates a file before it looks for a descriptor.
-/

open Xv6.Bytes Xv6.Cmd List

namespace Xv6.Disk

variable {cf : Conf} {s0 s s' s1 : State} {L hs : List Slot} {q r ip dp : Slot} {i j k n : Nat}
  {name : Mem} {path : List UInt8} {p : Fin NPROC}

/-- Whatever stops the machine. -/
def Any (_ : Stop) : Prop := True

/-! ## Ends of calls -/

theorem InOrder.begin_op (h : InOrder cf L s) : InOrder cf L { s with outstanding := s.outstanding + 1 } :=
  ⟨h.disk, ⟨h.cache.unique, h.cache.loaded⟩, h.bufs, h.held, h.root, h.locks, h.locked_ref, h.bound, h.cwd⟩

/-- The call returns -1 only with the blocks of `s0` on the disk. -/
def Failed (s0 : State) (r : Int) (s' : State) : Prop := r = -1 → s'.block = s0.block

theorem failed_end (h : s.block = s0.block) : Ends Any (do end_op; pure (-1) : K Int) s (Failed s0) :=
  ends_of_ok rfl fun _ => h

theorem failed_of_ne {x : K Int} (h : ∀ a s', x s = .ok (a, s') → a ≠ -1) : Ends Any x s (Failed s0) := by
  unfold Ends
  cases hx : x s with
  | error e => trivial
  | ok r => exact fun hc => absurd hc (h r.1 r.2 hx)

theorem iunlockput_failed (h : From cf s1 [q] [q] s) (hh : Held cf s1) {x : K Int}
    (hx : ∀ s', From cf s1 [] [] s' → Ends Any x s' (Failed s0)) :
    Ends Any (do iunlockput cf q; x) s (Failed s0) :=
  (iunlockput_ends h not_mem_nil hh).bind fun _ s' ⟨h1, _⟩ => hx s' h1

/-! ## `sys_link` -/

/-- The state of `sys_link` once the links of the inode in slot `ip` have gone up. -/
structure Raised (cf : Conf) (s0 : State) (ip : Slot) (s : State) : Prop where
  order : InOrder cf [] s
  ref : 0 < (s.icache ip).ref
  block : s.block = putInode cf s0.block (s.icache ip).inum
    ((dinode cf s0.block (s.icache ip).inum).withLinks ((dinode cf s0.block (s.icache ip).inum).nlink + 1))
  shared : (dinode cf s0.block (s.icache ip).inum).nlink = 0 → 2 ≤ (s.icache ip).ref

theorem linkBad_failed (hl : cf.Layout) (h : Raised cf s0 ip s1) (hf : From cf s1 [] [] s) :
    Ends Any (linkBad cf ip) s (Failed s0) := by
  have hpos : 0 < (s.icache ip).ref := by
    rw [hf.refs]
    exact Nat.lt_of_lt_of_le h.ref (Nat.le_add_right _ _)
  have hinum := hf.inums ip h.ref
  have horder := hf.inOrder h.order (by simp)
  have hbound := horder.bound ip hpos
  unfold linkBad
  refine (ilock_ends hf h.order.bufs hpos not_mem_nil hbound (.inl trivial)).bind fun _ s2 ⟨h2, hv2, hi2, _⟩ => ?_
  have hpos2 := h2.locked_ref ip (mem_singleton_self ip)
  have horder2 := h2.inOrder h.order (by simp)
  obtain ⟨i, hi⟩ : ∃ i, i = (s1.icache ip).inum := ⟨_, rfl⟩
  obtain ⟨d, hd⟩ : ∃ d, d = dinode cf s0.block i := ⟨_, rfl⟩
  have hblock := h.block
  have hshared := h.shared
  rw [← hi, ← hd] at hblock hshared
  rw [hinum, ← hi] at hi2
  have hfits : (d.withLinks (d.nlink + 1)).Fits := by
    have := dinode_fits cf s0.block i
    rw [← hd] at this
    exact ⟨this.size, this.addrs⟩
  have hdata : (s2.icache ip).toDinode = d.withLinks (d.nlink + 1) := by
    rw [(h2.cache.loaded ip hpos2 hv2).data, h2.block, hi2, hblock, dinode_putInode hfits]
  have hback : (s2.icache ip).toDinode.withLinks ((s2.icache ip).nlink + -1) = d := by
    have hn : d.nlink + 1 + -1 = d.nlink := by grind
    rw [hdata]
    unfold Dinode.withLinks
    dsimp only
    rw [hn]
  refine ends_bind_of_ok (addLink_ok (by rw [h2.bufs, h.order.bufs]) (-1)) ?_
  obtain ⟨-, horder3⟩ := horder2.save (N := ∅) hl (mem_singleton_self ip) hv2 (Dinode.same_withLinks _ ((s2.icache ip).nlink + -1))
  rw [hback] at horder3 ⊢
  have hblock3 : (s2.save cf ip d).block = s0.block := by
    change putInode cf s2.block (s2.icache ip).inum d = _
    rw [h2.block, hi2, hblock, hd, putInode_back]
  have hcell : (s2.save cf ip d).icache ip = (s2.icache ip).put d := save_inode d
  have hown := From.own horder3.cache horder3.locks horder3.locked_ref (horder3.locked_ref ip (mem_singleton_self ip))
  unfold iunlockput
  refine ((iunlock_ends hown not_mem_nil).bind fun _ s4 ⟨h4, hi4, _⟩ => ?_).bind fun _ s5 hs5 => failed_end hs5
  refine (iput_ends h4 not_mem_nil fun ⟨hv, hn, hone⟩ => ?_).imp fun _ s5 ⟨h5, _⟩ => h5.block.trans hblock3
  -- Somebody else holds the inode if no entry counts it.
  have hpos4 := h4.held_ref (mem_singleton_self ip)
  have hblock4 : s4.block = s0.block := h4.block.trans hblock3
  have hnum4 : (s4.icache ip).inum = i := by rw [hi4, hcell, Inode.put_inum, hi2]
  rw [(h4.cache.loaded ip hpos4 hv).data, hblock4, hnum4, ← hd] at hn
  have href4 := h4.refs ip
  have href2 := h2.refs ip
  have := hshared hn
  simp only [State.setInode, Function.update_self, hcell, Inode.put_ref, count_singleton_self, count_nil] at href4 href2
  omega

theorem dirlink_none {inum : Nat} {a : Int} (h : Dir cf s dp) (hfind : s.find dp name = none)
    (hrun : dirlink cf dp name inum s = .ok (a, s')) : a = 0 := by
  rw [dirlink, bind_of_ok (dirlookup_none h hfind)] at hrun
  obtain ⟨x, s1, -, hrun⟩ := bind_ok hrun
  obtain ⟨off, s2, -, hrun⟩ := bind_ok hrun
  obtain ⟨n, s3, -, hrun⟩ := bind_ok hrun
  split at hrun
  · cases hrun
  · cases hrun
    rfl

theorem linkTo_failed (hl : cf.Layout) (h : Raised cf s0 ip s) (hpath : 0 ∉ path) :
    Ends Any (linkTo cf p ip path) s (Failed s0) := by
  unfold linkTo
  refine (nameiparent_ends h.order (.inl trivial) hpath (.inl trivial)).bind fun r s1 hr => ?_
  rcases hr with ⟨rfl, -, h1⟩ | ⟨dp, name, rfl, -, -, hlt1, ht1, h1⟩
  · exact linkBad_failed hl h h1
  dsimp only
  refine (h.order.ilock_dir h1 hlt1 ht1).bind fun _ s2 ⟨h2, _, _, _, hdir⟩ => ?_
  refine ends_bind_of_ok (rfl : inode ip s2 = .ok (s2.icache ip, s2)) ?_
  cases hfind : s2.find dp name with
  | some j =>
    refine (dirlink_found hdir h2 hfind (.inl trivial) (.inl trivial)).bind fun a s3 ⟨ha, h3⟩ => ?_
    rw [ha, if_pos (by decide)]
    exact (iunlockput_ends h3 not_mem_nil h.order.held).bind fun _ s4 ⟨h4, _⟩ => linkBad_failed hl h h4
  | none =>
    refine failed_of_ne fun a s' hrun => ?_
    obtain ⟨b, s3, hlink, hrun⟩ := bind_ok hrun
    rw [dirlink_none hdir hfind hlink, if_neg (by decide)] at hrun
    obtain ⟨_, s4, -, hrun⟩ := bind_ok hrun
    obtain ⟨_, s5, -, hrun⟩ := bind_ok hrun
    cases hrun
    decide

/-- `sys_link` raises the links before it knows where the new entry goes, and lowers them again. -/
theorem sys_link_failed (hl : cf.Layout) (h : InOrder cf [] s) {old new : Option (List UInt8)} (hold : ∀ l ∈ old, 0 ∉ l)
    (hnew : ∀ l ∈ new, 0 ∉ l) : Ends Any (sys_link cf p old new) s (Failed s) := by
  unfold sys_link
  cases old with
  | none => exact ends_pure fun _ => rfl
  | some old =>
  cases new with
  | none => exact ends_pure fun _ => rfl
  | some new =>
  refine ends_bind_of_ok (rfl : begin_op s = .ok ((), _)) ?_
  have h1 := h.begin_op
  refine (namei_ends h1 (.inl trivial) (hold old rfl) (.inl trivial)).bind fun r s2 hr => ?_
  rcases hr with ⟨rfl, -, h2⟩ | ⟨ip, rfl, -, hlt2, h2⟩
  · exact failed_end h2.block
  dsimp only
  have hpos2 := h2.held_ref (mem_singleton_self ip)
  refine (ilock_ends h2 h1.bufs hpos2 not_mem_nil hlt2 (.inl trivial)).bind fun _ s3 ⟨h3, hv3, hi3, _⟩ => ?_
  refine ends_bind_of_ok (rfl : inode ip s3 = .ok (s3.icache ip, s3)) ?_
  split
  · exact iunlockput_failed h3 h1.held fun s4 h4 => failed_end h4.block
  have hpos3 := h3.held_ref (mem_singleton_self ip)
  have horder3 := h3.inOrder h1 (by simpa [hi3] using hlt2)
  have hload := h3.cache.loaded ip hpos3 hv3
  refine ends_bind_of_ok (addLink_ok horder3.bufs 1) ?_
  obtain ⟨-, horder4⟩ := horder3.save (N := ∅) hl (mem_singleton_self ip) hv3
    (Dinode.same_withLinks _ ((s3.icache ip).nlink + 1))
  have hcell : (s3.save cf ip ((s3.icache ip).toDinode.withLinks ((s3.icache ip).nlink + 1))).icache ip = _ := save_inode _
  refine (iunlock_ends horder4.from not_mem_nil).bind fun _ s5 ⟨h5, hi5, _⟩ => ?_
  have hraised : Raised cf s ip s5 := by
    have hnum : (s5.icache ip).inum = (s3.icache ip).inum := by rw [hi5, hcell, Inode.put_inum]
    have href : (s5.icache ip).ref = (s3.icache ip).ref := by rw [h5.refs, hcell, Inode.put_ref, count_nil, Nat.add_zero]
    refine ⟨h5.inOrder horder4 (by simp), by rw [href]; exact hpos3, ?_, fun hn => ?_⟩
    · rw [h5.block, hnum]
      change putInode cf s3.block _ _ = _
      rw [h3.block, hload.data, h3.block]
    · rw [hnum] at hn
      rw [href]
      by_contra hc
      refine h3.live h1.held ⟨hv3, ?_, by omega⟩
      rw [hload.data, h3.block]
      exact hn
  exact linkTo_failed hl hraised (hnew new rfl)

/-! ## `sys_unlink` -/

theorem isdiremptyLoop_eq (h : Dir cf s dp) (k : Nat) (hk : count (s.bytes dp) < k + j) :
    ∃ b, isdiremptyLoop cf dp k (DENT * j) s = .ok (b, s) := by
  induction k generalizing j with
  | zero =>
    rw [isdiremptyLoop, bind_of_ok (rfl : inode dp s = .ok (s.icache dp, s)), if_neg (mt h.offset_lt_iff.mp (by omega))]
    exact ⟨true, rfl⟩
  | succ k ih =>
    rw [isdiremptyLoop, bind_of_ok (rfl : inode dp s = .ok (s.icache dp, s))]
    by_cases hlt : j < count (s.bytes dp)
    · rw [if_pos (h.offset_lt_iff.mpr hlt), bind_of_ok (h.readi_entry hlt)]
      simp only [h.length_chunk hlt, ne_eq, not_true, if_false]
      split
      · exact ⟨false, rfl⟩
      · rw [u32_of_lt (h.offset_lt (Nat.le_of_lt hlt)).2, ← Nat.mul_succ]
        exact ih (by omega)
    · rw [if_neg (mt h.offset_lt_iff.mp hlt)]
      exact ⟨true, rfl⟩

theorem isdirempty_eq (h : Dir cf s dp) : ∃ b, isdirempty cf dp s = .ok (b, s) := by
  rw [isdirempty, bind_of_ok (rfl : inode dp s = .ok (s.icache dp, s)), h.size_eq, Nat.mul_div_cancel_left _ (by decide),
    Nat.mul_comm]
  exact isdiremptyLoop_eq h _ (by omega)

theorem unlinkEntry_ok {off : Nat} {a : Int} (hrun : unlinkEntry cf dp ip off s = .ok (a, s')) : a = 0 := by
  unfold unlinkEntry at hrun
  obtain ⟨n, s1, -, hrun⟩ := bind_ok hrun
  split at hrun
  · cases hrun
  · obtain ⟨x, s2, -, hrun⟩ := bind_ok hrun
    obtain ⟨_, s3, -, hrun⟩ := bind_ok hrun
    obtain ⟨_, s4, -, hrun⟩ := bind_ok hrun
    obtain ⟨_, s5, -, hrun⟩ := bind_ok hrun
    obtain ⟨_, s6, -, hrun⟩ := bind_ok hrun
    cases hrun
    rfl

theorem unlinkEntry_failed {off : Nat} : Ends Any (unlinkEntry cf dp ip off) s (Failed s0) := by
  refine failed_of_ne fun a s' hrun => ?_
  rw [unlinkEntry_ok hrun]
  decide

theorem unlinkBad_failed (h : From cf s1 [dp] [dp] s) (hh : Held cf s1) (hb : s1.block = s0.block) :
    Ends Any (unlinkBad cf dp) s (Failed s0) :=
  iunlockput_failed h hh fun _ h1 => failed_end (h1.block.trans hb)

theorem InOrder.entry_lt (h : InOrder cf L s) (hpos : 0 < (s.icache dp).ref) (hv : (s.icache dp).valid = true)
    (ht : (s.icache dp).type = T_DIR) (hfind : s.find dp name = some j) : s.inumAt dp j < cf.ninodes := by
  obtain ⟨hj, hc⟩ := cell_of_find hfind
  exact (h.dirOk hpos hv ht).inums j hj _ _ hc

theorem ilock_locked {P : Unit → State → Prop} (hpos : 0 < (s.icache q).ref) (h : (s.icache q).locked = true) :
    Ends Any (ilock cf q) s P := by
  unfold Ends ilock
  rw [bind_of_ok (rfl : inode q s = .ok (s.icache q, s)), if_neg (by omega), bind_of_error (acquiresleep_locked h)]
  trivial

theorem sys_unlink_failed (h : InOrder cf [] s) {path : Option (List UInt8)} (hpath : ∀ l ∈ path, 0 ∉ l) :
    Ends Any (sys_unlink cf p path) s (Failed s) := by
  unfold sys_unlink
  cases path with
  | none => exact ends_pure fun _ => rfl
  | some path =>
  refine ends_bind_of_ok (rfl : begin_op s = .ok ((), _)) ?_
  have h1 := h.begin_op
  refine (nameiparent_ends h1 (.inl trivial) (hpath path rfl) (.inl trivial)).bind fun r s2 hr => ?_
  rcases hr with ⟨rfl, -, h2⟩ | ⟨dp, name, rfl, -, -, hlt2, ht2, h2⟩
  · exact failed_end h2.block
  dsimp only
  refine (h1.ilock_dir h2 hlt2 ht2).bind fun _ s3 ⟨h3, hv3, hi3, ht3, hdir⟩ => ?_
  split
  · exact unlinkBad_failed h3 h1.held rfl
  have hpos3 := h3.held_ref (mem_singleton_self dp)
  cases hfind : s3.find dp name with
  | none =>
    refine ends_bind_of_ok (dirlookup_none hdir hfind) ?_
    exact unlinkBad_failed h3 h1.held rfl
  | some j =>
  refine (dirlookup_ends hdir h3 hfind (.inl trivial)).bind fun r s4 ⟨ip, hr, h4, hi4, _⟩ => ?_
  subst hr
  dsimp only
  have hpos4 := h4.held_ref (mem_cons_self ..)
  by_cases hself : ip = dp
  · -- The entry refers to the directory itself.
    subst hself
    exact Ends.bind (P := fun _ _ => False) (ilock_locked hpos4 (by simpa using h4.locks ip)) fun _ _ hc => hc.elim
  have horder3 := h3.inOrder h1 (by simpa [hi3] using hlt2)
  have hlt4 : (s4.icache ip).inum < cf.ninodes := by
    rw [hi4]
    exact horder3.entry_lt hpos3 hv3 ht3 hfind
  refine (ilock_ends h4 h1.bufs hpos4 (by simpa using hself) hlt4 (.inl trivial)).bind fun _ s5 ⟨h5, hv5, hi5, _⟩ => ?_
  refine ends_bind_of_ok (rfl : inode ip s5 = .ok (s5.icache ip, s5)) ?_
  split
  · exact ends_throw trivial
  split
  · next ht5 =>
    have hpos5 := h5.held_ref (mem_cons_self ..)
    obtain ⟨b, hb⟩ := isdirempty_eq (h5.dir h1.disk h1.bufs hpos5 hv5 ht5)
    refine ends_bind_of_ok hb ?_
    cases b with
    | true => exact unlinkEntry_failed
    | false =>
      refine (iunlockput_ends h5 (by simpa using hself) h1.held).bind fun _ s6 ⟨h6, _⟩ => ?_
      exact unlinkBad_failed h6 h1.held rfl
  · exact unlinkEntry_failed

/-! ## `create` -/

/-- The path leads to a directory that has no entry with the last name. -/
def IsNew (cf : Conf) (s : State) (p : Fin NPROC) (path : List UInt8) : Prop :=
  ∃ i c, walkParent cf s.block (s.origin p path) (components path) = some i ∧
    (components path).getLast? = some c ∧ dirEntries cf s.block i c = none

/-- What `create` gives: nothing, a file that was there, or a new one. -/
def Created (cf : Conf) (s0 : State) (p : Fin NPROC) (path : List UInt8) (r : Option Slot) (s' : State) : Prop :=
  match r with
  | none => From cf s0 [] [] s'
  | some q => From cf s0 [q] [q] s' ∨ (IsNew cf s0 p path ∧ s'.tables = s0.tables)

theorem createNew_some {type major minor : Int16} {a : Option Slot}
    (hrun : createNew cf dp name type major minor s = .ok (a, s')) : ∃ q, a = some q := by
  unfold createNew at hrun
  obtain ⟨ip, s1, -, hrun⟩ := bind_ok hrun
  obtain ⟨_, s2, -, hrun⟩ := bind_ok hrun
  obtain ⟨x, s3, -, hrun⟩ := bind_ok hrun
  obtain ⟨_, s4, -, hrun⟩ := bind_ok hrun
  obtain ⟨_, s5, -, hrun⟩ := bind_ok hrun
  obtain ⟨_, s6, -, hrun⟩ := bind_ok hrun
  obtain ⟨y, s7, -, hrun⟩ := bind_ok hrun
  obtain ⟨n, s8, -, hrun⟩ := bind_ok hrun
  split at hrun
  · cases hrun
  · obtain ⟨_, s9, -, hrun⟩ := bind_ok hrun
    cases hrun
    exact ⟨ip, rfl⟩

theorem create_any (h : InOrder cf [] s) (hpath : 0 ∉ path) (type major minor : Int16) :
    Ends Any (create cf p path type major minor) s (Created cf s p path) := by
  unfold create
  refine (nameiparent_ends h (.inl trivial) hpath (.inl trivial)).bind fun r s1 hr => ?_
  rcases hr with ⟨rfl, -, h1⟩ | ⟨dp, name, rfl, hwalk, hlast, hlt1, ht1, h1⟩
  · exact ends_pure h1
  dsimp only
  refine (h.ilock_dir h1 hlt1 ht1).bind fun _ s2 ⟨h2, hv2, hi2, ht2, hdir⟩ => ?_
  have hpos2 := h2.held_ref (mem_singleton_self dp)
  cases hfind : s2.find dp name with
  | none =>
    refine ends_bind_of_ok (dirlookup_none hdir hfind) ?_
    dsimp only
    unfold Ends
    cases hrun : createNew cf dp name type major minor s2 with
    | error e => trivial
    | ok res =>
      obtain ⟨a, s3⟩ := res
      obtain ⟨q, rfl⟩ := createNew_some hrun
      have hnew : IsNew cf s p path := by
        refine ⟨_, _, hwalk, hlast, ?_⟩
        have hent := entries_eq_none.mpr hfind
        unfold State.entries State.bytes at hent
        rw [(h2.cache.loaded dp hpos2 hv2).data, h2.block, hi2] at hent
        exact hent
      have htables : s3.tables = s.tables := by
        rw [keeps_createNew name type major minor s2 _ s3 hrun, State.tables, State.tables, h2.same]
      exact .inr ⟨hnew, htables⟩
  | some j =>
  refine (dirlookup_ends hdir h2 hfind (.inl trivial)).bind fun r s3 ⟨ip, hr, h3, hi3, _⟩ => ?_
  subst hr
  dsimp only
  refine (iunlockput_ends (h3.reorder (List.Perm.swap ..)) not_mem_nil h.held).bind fun _ s4 ⟨h4, hi4⟩ => ?_
  have hpos4 := h4.held_ref (mem_singleton_self ip)
  have horder2 := h2.inOrder h (by simpa [hi2] using hlt1)
  have hlt4 : (s4.icache ip).inum < cf.ninodes := by
    rw [hi4, hi3]
    exact horder2.entry_lt hpos2 hv2 ht2 hfind
  refine (ilock_ends h4 h.bufs hpos4 not_mem_nil hlt4 (.inl trivial)).bind fun _ s5 ⟨h5, _⟩ => ?_
  refine ends_bind_of_ok (rfl : inode ip s5 = .ok (s5.icache ip, s5)) ?_
  split
  · exact ends_pure (.inl h5)
  · exact (iunlockput_ends h5 not_mem_nil h.held).bind fun _ s6 ⟨h6, _⟩ => ends_pure h6

/-! ## The calls that create -/

theorem putNew_failed {a : Option Slot} {path : List UInt8} (h : Created cf s1 p path a s) (hb : s1.block = s0.block) :
    Ends Any (putNew cf a) s (Failed s0) := by
  cases a with
  | none => exact failed_end (From.block h |>.trans hb)
  | some q =>
    refine failed_of_ne fun a s' hrun => ?_
    obtain ⟨_, s2, -, hrun⟩ := bind_ok hrun
    cases hrun
    decide

theorem mknod_failed (h : InOrder cf [] s) {path : Option (List UInt8)} (hpath : ∀ l ∈ path, 0 ∉ l) (type major minor : Int16) :
    Ends Any (do
      begin_op
      match path with
      | none => putNew cf none
      | some path => do
        let ip ← create cf p path type major minor
        putNew cf ip : K Int) s (Failed s) := by
  refine ends_bind_of_ok (rfl : begin_op s = .ok ((), _)) ?_
  have h1 := h.begin_op
  cases path with
  | none => exact failed_end rfl
  | some path => exact (create_any h1 (hpath path rfl) type major minor).bind fun a s2 h2 => putNew_failed h2 rfl

theorem sys_mkdir_failed (h : InOrder cf [] s) {path : Option (List UInt8)} (hpath : ∀ l ∈ path, 0 ∉ l) :
    Ends Any (sys_mkdir cf p path) s (Failed s) := mknod_failed h hpath T_DIR 0 0

theorem sys_mknod_failed (h : InOrder cf [] s) {path : Option (List UInt8)} (hpath : ∀ l ∈ path, 0 ∉ l)
    (major minor : Int32) : Ends Any (sys_mknod cf p path major minor) s (Failed s) :=
  mknod_failed h hpath T_DEV major.toInt16 minor.toInt16

/-! ## `sys_open` -/

/-- An entry of the file table and a descriptor that are not in use. -/
def HasFile (s : State) (p : Fin NPROC) : Prop :=
  (∃ f, (s.file f).ref = 0) ∧ ∃ fd, (s.proc p).ofile fd = none

theorem filealloc_cases (s : State) : ((∀ f, (s.file f).ref ≠ 0) ∧ filealloc s = .ok (none, s)) ∨
    ∃ f, (s.file f).ref = 0 ∧ filealloc s = .ok (some f, s.setFile f { s.file f with ref := 1 }) := by
  unfold filealloc
  split
  · next h =>
    rw [List.find?_eq_none] at h
    exact .inl ⟨fun f => by simpa using h f (mem_finRange f), rfl⟩
  · next f h => exact .inr ⟨f, by simpa using List.find?_some h, rfl⟩

theorem fdalloc_cases (s : State) (p : Fin NPROC) (f : Fin NFILE) :
    ((∀ fd, (s.proc p).ofile fd ≠ none) ∧ fdalloc p f s = .ok (none, s)) ∨
      ∃ fd s', fdalloc p f s = .ok (some fd, s') := by
  unfold fdalloc
  split
  · next h =>
    rw [List.find?_eq_none] at h
    exact .inl ⟨fun fd => by simpa using h fd (mem_finRange fd), rfl⟩
  · exact .inr ⟨_, _, rfl⟩

theorem fileclose_unused {f : Fin NFILE} (hr : (s.file f).ref = 1) (ht : (s.file f).type = .FD_NONE) :
    fileclose cf f s = .ok ((), s.setFile f { s.file f with ref := 0, type := .FD_NONE }) := by
  unfold fileclose
  simp [hr, ht]

theorem From.setFile (h : From cf s0 L hs s) (f : Fin NFILE) (x : File) : From cf (s0.setFile f x) L hs (s.setFile f x) := by
  have hsame := h.same
  refine ⟨?_, ⟨h.cache.unique, h.cache.loaded⟩, h.refs, h.inums, h.valids, h.locks, h.locked_ref⟩
  unfold State.setFile
  rw [hsame]

/-- What `sys_open` opens: nothing, a file that was there, or a new one. -/
def Opening (cf : Conf) (s0 : State) (p : Fin NPROC) (path : List UInt8) (omode : UInt32) (r : Option Slot)
    (s' : State) : Prop :=
  match r with
  | none => From cf s0 [] [] s'
  | some q => From cf s0 [q] [q] s' ∨ (omode &&& O_CREATE ≠ 0 ∧ IsNew cf s0 p path ∧ s'.tables = s0.tables)

theorem openInode_any (h : InOrder cf [] s) (hpath : 0 ∉ path) (omode : UInt32) :
    Ends Any (openInode cf p path omode) s (Opening cf s p path omode) := by
  unfold openInode
  split
  · next hc =>
    refine (create_any h hpath T_FILE 0 0).imp fun r s' hr => ?_
    cases r with
    | none => exact hr
    | some q => exact Or.imp_right (fun hnew => ⟨hc, hnew⟩) hr
  · refine (namei_ends h (.inl trivial) hpath (.inl trivial)).bind fun r s1 hr => ?_
    rcases hr with ⟨rfl, -, h1⟩ | ⟨ip, rfl, -, hlt1, h1⟩
    · exact ends_pure h1
    dsimp only
    have hpos1 := h1.held_ref (mem_singleton_self ip)
    refine (ilock_ends h1 h.bufs hpos1 not_mem_nil hlt1 (.inl trivial)).bind fun _ s2 ⟨h2, _⟩ => ?_
    refine ends_bind_of_ok (rfl : inode ip s2 = .ok (s2.icache ip, s2)) ?_
    split
    · exact (iunlockput_ends h2 not_mem_nil h.held).bind fun _ s3 ⟨h3, _⟩ => ends_pure h3
    · exact ends_pure (.inl h2)

/-- `sys_open` does not take a new file back: it must not find the tables full. -/
theorem sys_open_failed (h : InOrder cf [] s) (hfiles : ∀ f, (s.file f).ref = 0 → (s.file f).type = .FD_NONE)
    {path : Option (List UInt8)} (hpath : ∀ l ∈ path, 0 ∉ l) (omode : UInt32)
    (hnew : omode &&& O_CREATE ≠ 0 → ∀ l ∈ path, IsNew cf s p l → HasFile s p) :
    Ends Any (sys_open cf p path omode) s (Failed s) := by
  unfold sys_open
  cases path with
  | none => exact ends_pure fun _ => rfl
  | some path =>
  refine ends_bind_of_ok (rfl : begin_op s = .ok ((), _)) ?_
  have h1 := h.begin_op
  refine (openInode_any h1 (hpath path rfl) omode).bind fun r s2 h2 => ?_
  cases r with
  | none =>
    have h2 : From cf _ [] [] s2 := h2
    exact failed_end h2.block
  | some ip =>
  have htables : s2.file = s.file ∧ s2.proc = s.proc := by
    rcases h2 with h2 | ⟨-, -, h2⟩
    · rw [h2.same]
      exact ⟨rfl, rfl⟩
    · exact ⟨congrArg Prod.fst h2, congrArg (fun t => t.2.1) h2⟩
  dsimp only
  -- Where a table is full, the file was there before.
  have hold (hfull : ¬HasFile s2 p) : From cf { s with outstanding := s.outstanding + 1 } [ip] [ip] s2 := by
    refine h2.resolve_right fun ⟨hc, hn, _⟩ => hfull ?_
    unfold HasFile
    rw [htables.1, htables.2]
    exact hnew hc path rfl hn
  rcases filealloc_cases s2 with ⟨hfull, hrun⟩ | ⟨f, hf, hrun⟩
  · refine ends_bind_of_ok hrun ?_
    exact iunlockput_failed (hold fun hc => hc.1.elim hfull) h1.held fun s3 h3 => failed_end h3.block
  · refine ends_bind_of_ok hrun ?_
    dsimp only
    rcases fdalloc_cases (s2.setFile f { s2.file f with ref := 1 }) p f with ⟨hfull, hrun⟩ | ⟨fd, s', hrun⟩
    · refine ends_bind_of_ok hrun ?_
      have htype : (s2.file f).type = .FD_NONE := by
        rw [htables.1] at hf ⊢
        exact hfiles f hf
      refine ends_bind_of_ok (fileclose_unused (by simp [State.setFile]) (by simpa [State.setFile] using htype)) ?_
      have h3 := ((hold fun hc => hc.2.elim hfull).setFile f { s2.file f with ref := 1 }).setFile f
        { (s2.setFile f { s2.file f with ref := 1 }).file f with ref := 0, type := .FD_NONE }
      exact iunlockput_failed h3 h1.held fun s4 h4 => failed_end h4.block
    · refine ends_bind_of_ok hrun (failed_of_ne fun a s4 hrun => ?_)
      obtain ⟨_, s5, -, hrun⟩ := bind_ok hrun
      obtain ⟨_, s6, -, hrun⟩ := bind_ok hrun
      obtain ⟨_, s7, -, hrun⟩ := bind_ok hrun
      cases hrun
      omega

/-! ## The calls together -/

/-- The calls that change names, with their arguments. -/
inductive NameCall where
  | link (old new : Option (List UInt8))
  | unlink (path : Option (List UInt8))
  | mkdir (path : Option (List UInt8))
  | mknod (path : Option (List UInt8)) (major minor : Int32)
  | opens (path : Option (List UInt8)) (omode : UInt32)

def NameCall.run (cf : Conf) (p : Fin NPROC) : NameCall → K Int
  | .link old new => sys_link cf p old new
  | .unlink path => sys_unlink cf p path
  | .mkdir path => sys_mkdir cf p path
  | .mknod path major minor => sys_mknod cf p path major minor
  | .opens path omode => sys_open cf p path omode

/-- The paths are C strings. -/
def NameCall.Strings : NameCall → Prop
  | .link old new => (∀ l ∈ old, 0 ∉ l) ∧ ∀ l ∈ new, 0 ∉ l
  | .unlink path | .mkdir path | .mknod path _ _ | .opens path _ => ∀ l ∈ path, 0 ∉ l

/-- The call makes a file only where the tables have room for it. -/
def NameCall.Fits (cf : Conf) (p : Fin NPROC) (s : State) : NameCall → Prop
  | .opens path omode => omode &&& O_CREATE ≠ 0 → ∀ l ∈ path, IsNew cf s p l → HasFile s p
  | _ => True

/-- `unlink("/a")` of a file that does not exist. -/
def unlinkMissing : NameCall := .unlink (some [slash, 97])

/-- The first process has opened the root directory, and copied the descriptor until it had no other. -/
def noDescriptor : State where
  block := fresh.block
  bufs := []
  logged := []
  icache q := { fresh.icache q with ref := if q = rootSlot then 2 else 0 }
  file f := if f.val = 0 then ⟨.FD_INODE, NOFILE, true, false, rootSlot, 0⟩ else fresh.file f
  proc p := ⟨fun _ => if p = initProc then some ⟨0, by decide⟩ else none, rootSlot⟩
  outstanding := 0

end Xv6.Disk
