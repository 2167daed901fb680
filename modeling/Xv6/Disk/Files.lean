import Xv6.Disk.Dir

/-!
# Open files are arrays of bytes

Any number of writes to any number of files that are open. The files share the bitmap and the blocks of the
inodes, and each of them is the array that its own writes make.
-/

open Xv6.Bytes Xv6.Cmd

namespace Xv6.Disk

variable {cf : Conf} {s s' s1 : State} {off : Nat} {ip jp : Slot} {src : List UInt8} {S : Set Slot}

/-- The slot, the offset and the bytes. -/
abbrev Write := Slot × Nat × List UInt8

def writeAll (cf : Conf) : List Write → K Unit
  | [] => pure ()
  | (ip, off, src) :: ws => do
    let _ ← writei cf ip src off
    writeAll cf ws

/-- The array `c` after a write. One that leaves a gap or is too long is refused. -/
def stored (c : List UInt8) (off : Nat) (src : List UInt8) : List UInt8 :=
  if off ≤ c.length ∧ off + src.length ≤ MAXFILE * BSIZE then c.take off ++ src ++ c.drop (off + src.length) else c

def afterWrites (ip : Slot) : List Write → List UInt8 → List UInt8
  | [], c => c
  | (jp, off, src) :: ws, c => afterWrites ip ws (if jp = ip then stored c off src else c)

theorem Written.other (hw : Written cf ip off src s s') (h : Ready cf s ip) (hj : Ready cf s jp)
    (hne : (s.icache jp).inum ≠ (s.icache ip).inum) :
    Ready cf s' jp ∧ (s'.icache jp).inum = (s.icache jp).inum ∧ s'.bytes jp = s.bytes jp := by
  have hslot : jp ≠ ip := by
    rintro rfl
    exact hne rfl
  have hcell := hw.icache jp hslot
  have hdisk := hw.disk _ hj.inum hne
  have htype : (dinode cf s.block (s.icache jp).inum).type ≠ 0 := by
    rw [hj.disk]
    exact hj.type
  have hrefs := hw.other_ref h.toOpen hj.inum hne htype
  have hbytes := hw.other_contents h.toOpen hj.inum hne htype
  rw [hdisk, hj.disk] at hrefs hbytes
  have hsame : dinode cf s'.block (s'.icache jp).inum = (s'.icache jp).toDinode := by
    rw [hcell, hdisk, hj.disk]
  have hsound := hw.ready.sound
  rw [view_eq hw.ready.disk] at hsound
  refine ⟨⟨⟨?_, ?_, ?_⟩, hw.ready.bufs, hsame, fun bn hbn => ?_, ?_⟩, ?_, ?_⟩
  · rw [hcell]
    exact hj.inum
  · rw [hcell]
    exact hj.type
  · rwa [view_eq hsame]
  · rw [hcell] at hbn ⊢
    rw [hrefs]
    exact hj.full bn hbn
  · rw [hcell]
    exact hj.kind
  · rw [hcell]
  · unfold State.bytes
    rwa [hcell]

theorem writei_files {r : Int} (hl : cf.Layout) (h : ∀ jp ∈ S, Ready cf s jp)
    (hinj : ∀ jp ∈ S, ∀ kp ∈ S, (s.icache jp).inum = (s.icache kp).inum → jp = kp) (hip : ip ∈ S)
    (hoff : off < 0x100000000) (hlen : src.length < 0x100000000) (hrun : writei cf ip src off s = .ok (r, s')) :
    ∀ jp ∈ S, Ready cf s' jp ∧ (s'.icache jp).inum = (s.icache jp).inum ∧
      s'.bytes jp = if ip = jp then stored (s.bytes jp) off src else s.bytes jp := by
  intro jp hjp
  by_cases hok : off ≤ (s.icache ip).size ∧ off + src.length ≤ MAXFILE * BSIZE
  · have hend := writei_ends (E := fun _ => True) hl (h ip hip) hok.1 hok.2 (.inl trivial)
    rw [Ends, hrun] at hend
    have hw := hend.2
    by_cases heq : ip = jp
    · subst heq
      rw [if_pos rfl, stored, if_pos (by rwa [length_bytes_dir])]
      exact ⟨hw.ready, hw.inum, hw.contents⟩
    · rw [if_neg heq]
      apply hw.other (h ip hip) (h jp hjp)
      intro hc
      exact heq (hinj ip hip jp hjp hc.symm)
  · rw [writei_refuses (h ip hip) hoff hlen (by omega)] at hrun
    cases hrun
    refine ⟨h jp hjp, rfl, ?_⟩
    split
    · next heq =>
      subst heq
      rw [stored, if_neg (by rwa [length_bytes_dir])]
    · rfl

/-- After any writes to the open files `S`, each of them holds what its own writes make of it. -/
theorem files_hold_their_writes {ws : List Write} (hl : cf.Layout) (h : ∀ ip ∈ S, Ready cf s ip)
    (hinj : ∀ ip ∈ S, ∀ jp ∈ S, (s.icache ip).inum = (s.icache jp).inum → ip = jp)
    (hws : ∀ w ∈ ws, w.1 ∈ S ∧ w.2.1 < 0x100000000 ∧ w.2.2.length < 0x100000000)
    (hrun : writeAll cf ws s = .ok ((), s')) :
    ∀ ip ∈ S, Ready cf s' ip ∧ s'.bytes ip = afterWrites ip ws (s.bytes ip) := by
  induction ws generalizing s with
  | nil =>
    cases hrun
    exact fun ip hip => ⟨h ip hip, rfl⟩
  | cons w ws ih =>
    obtain ⟨jp, off, src⟩ := w
    obtain ⟨hjp, hoff, hlen⟩ := hws _ List.mem_cons_self
    obtain ⟨r, s1, h1, hrest⟩ := bind_ok hrun
    have hstep := writei_files hl h hinj hjp hoff hlen h1
    intro ip hip
    have hrec := ih (fun kp hkp => (hstep kp hkp).1)
      (fun kp hkp lp hlp hc => hinj kp hkp lp hlp (by rwa [(hstep kp hkp).2.1, (hstep lp hlp).2.1] at hc))
      (fun w hw => hws w (List.mem_cons_of_mem _ hw)) hrest ip hip
    rw [(hstep ip hip).2.2] at hrec
    exact hrec

/-- Three bytes over the end of the root directory, and a byte behind a gap. -/
def overEnd : List Write := [(rootSlot, 511, [1, 2, 3]), (rootSlot, 600, [7])]

theorem files_hold_their_writes_fresh : ∃ s', writeAll sample overEnd fresh = .ok ((), s') ∧
    s'.bytes rootSlot = afterWrites rootSlot overEnd (fresh.bytes rootSlot) := by
  obtain ⟨s1, h1, hw⟩ : ∃ s1, writei sample rootSlot [1, 2, 3] 511 fresh = .ok (3, s1) ∧ Written _ _ _ _ _ _ :=
    writei_spec sample_layout fresh_ready (by decide) (by decide) (by unfold Room; decide +kernel)
  have hsize : (s1.icache rootSlot).size = 514 := by
    rw [hw.inode]
    rfl
  have h2 : writei sample rootSlot [7] 600 s1 = .ok (-1, s1) :=
    writei_refuses hw.ready (by decide) (by decide) (.inl (by rw [hsize]; decide))
  have hrun : writeAll sample overEnd fresh = .ok ((), s1) := by
    unfold overEnd writeAll
    rw [bind_of_ok h1]
    unfold writeAll
    rw [bind_of_ok h2]
    rfl
  refine ⟨s1, hrun, (files_hold_their_writes (S := {rootSlot}) sample_layout ?_ ?_ ?_ hrun rootSlot rfl).2⟩
  · rintro _ rfl
    exact fresh_ready
  · rintro _ rfl _ rfl _
    rfl
  · intro w hw
    simp only [overEnd, List.mem_cons, List.not_mem_nil, or_false] at hw
    rcases hw with rfl | rfl <;> exact ⟨rfl, by decide, by decide⟩

end Xv6.Disk
