import Xv6.Kalloc.Count
import Xv6.Vm.Take

/-!
# The free list as a list

The machine keeps its free list as a list of pages and its counts as integers. Both are what the
links and the 32-bit counts of `kalloc.c` stand for, call by call, as long as the accounting holds.
-/

open Xv6.Link Xv6.Pool

namespace Xv6.Kalloc

structure Sim (k : Kmem) (s : Vm.Phys) : Prop where
  chain : Chain k.next k.freelist s.freelist
  freecnt : k.freecnt = s.freecnt
  refc : ∀ p, (k.refc_cnt p).toInt = s.refc_cnt p

variable {ld : Vm.Linker} {k : Kmem} {s s' : Vm.Phys} {p : Nat} {n : Int32} {own sh : Nat → Nat}
  {dom : Nat → Prop}

theorem sim_setRefc (h : Sim k s) : Sim (k.setRefc p n) (s.setRefc p n.toInt) where
  chain := h.chain
  freecnt := h.freecnt
  refc q := by
    by_cases hq : q = p
    · subst hq
      simp [Kmem.setRefc, Vm.Phys.setRefc]
    · simp [Kmem.setRefc, Vm.Phys.setRefc, Function.update_of_ne hq, h.refc]

theorem sim_push (h : Sim k s) (hp : p ∉ s.freelist) : Sim (k.push p) (s.push p) where
  chain := chain_of_push.mpr ⟨s.freelist, rfl, hp, h.chain⟩
  freecnt := congrArg (· + 1) h.freecnt
  refc := h.refc

theorem sim_kalloc {r : Option Nat} (h : Sim k s) (hk : Vm.kalloc s = .ok (r, s')) :
    r = k.freelist ∧ Sim (kalloc k) s' := by
  have hc := h.chain
  rcases Vm.kalloc_cases hk with ⟨rfl, hf, rfl⟩ | ⟨q, rest, rfl, hf, rfl⟩
  · rw [hf] at hc
    have hnone : k.freelist = none := hc
    rw [kalloc_none hnone]
    exact ⟨hnone.symm, h.chain, congrArg (· - 1) h.freecnt, h.refc⟩
  · rw [hf] at hc
    have h1 := (sim_setRefc (p := q) (n := 1) h).refc
    rw [kalloc_some hc.1]
    exact ⟨hc.1.symm, hc.2, congrArg (· - 1) h.freecnt, h1⟩

theorem toInt_sub_one {n : Int32} (h : 0 < n.toInt) : (n - 1).toInt = n.toInt - 1 := by
  have hlt := n.toInt_lt
  rw [Int32.toInt_sub]
  exact Int.bmod_eq_of_le (by simp; omega) (by simp; omega)

theorem toInt_add_one {n : Int32} (h : n.toInt < 0x7fffffff) : (n + 1).toInt = n.toInt + 1 := by
  have hle := n.le_toInt
  rw [Int32.toInt_add]
  exact Int.bmod_eq_of_le (by simp; omega) (by simp; omega)

theorem sim_incr_refc (h : Sim k s) (hlt : s.refc_cnt p < 0x7fffffff) :
    Sim (incr_refc (p * PGSIZE) k) (s.setRefc p (s.refc_cnt p + 1)) := by
  have hp : pageOf (p * PGSIZE) = p := by simp [pageOf]
  have := sim_setRefc (p := p) (n := k.refc_cnt p + 1) h
  rw [toInt_add_one (by rw [h.refc]; exact hlt), h.refc] at this
  rw [incr_refc, hp]
  exact this

theorem sim_decr_refc (h : Sim k s) (hpos : 0 < s.refc_cnt p) :
    Sim (decr_refc (p * PGSIZE) k) (s.setRefc p (s.refc_cnt p - 1)) := by
  have hp : pageOf (p * PGSIZE) = p := by simp [pageOf]
  have := sim_setRefc (p := p) (n := k.refc_cnt p - 1) h
  rw [toInt_sub_one (by rw [h.refc]; exact hpos), h.refc] at this
  rw [decr_refc, hp]
  exact this

theorem sim_kfree {u : Unit} (h : Sim k s) (ha : Vm.Acct dom s own sh) (hp : 0 < own p + sh p)
    (hk : Vm.kfree ld p s = .ok (u, s')) :
    ∃ k', kfree ld (P2V (p * PGSIZE)) k = some k' ∧ Sim k' s' := by
  have hman := Vm.managed_of_kfree hk
  have hcount := ha.count p (ha.inDom p hp)
  have hnot : p ∉ s.freelist := by
    intro hm
    have := ((ha.mem p).mp hm).2
    omega
  have hpos : 0 < (k.refc_cnt p).toInt := by
    rw [h.refc]
    omega
  have hsub := toInt_sub_one hpos
  have hv : Accepts ld (P2V (p * PGSIZE)) ∧ pageOf (V2P (P2V (p * PGSIZE))) = p := by
    obtain ⟨h1, h2⟩ := hman
    simp only [Accepts, pageOf, V2P, P2V, u32, PGSIZE, PHYSTOP, KERNBASE] at *
    omega
  have hlt : 0 < k.refc_cnt p := Int32.lt_iff_toInt_lt.mpr hpos
  refine ⟨freePage p k, by rw [kfree, if_pos hv.1, hv.2], ?_⟩
  have hset : Sim (k.setRefc p (k.refc_cnt p - 1)) (s.setRefc p (s.refc_cnt p - 1)) := by
    have := sim_setRefc (p := p) (n := k.refc_cnt p - 1) h
    rwa [hsub, h.refc] at this
  rw [Vm.kfree_of_managed hman] at hk
  obtain ⟨-, rfl⟩ := Prod.mk.inj (Except.ok.inj hk)
  have hpos' : 0 < s.refc_cnt p := by rwa [h.refc] at hpos
  simp only [freePage, if_pos hlt, if_pos hpos', Kmem.setRefc, Vm.Phys.setRefc, Function.update_self]
  by_cases hlast : s.refc_cnt p = 1
  · have hk1 : k.refc_cnt p - 1 = 0 := by
      rw [← Int32.toInt_inj, hsub, h.refc, hlast]
      rfl
    rw [if_pos hk1, if_pos (by omega)]
    exact sim_push hset hnot
  · have hk1 : k.refc_cnt p - 1 ≠ 0 := by
      rw [Ne, ← Int32.toInt_inj, hsub, h.refc]
      change ¬ s.refc_cnt p - 1 = 0
      omega
    rw [if_neg hk1, if_neg (by omega)]
    exact hset

/-! ## Clients

The rest of the kernel owns pages, or shares them between page tables. -/

/-- `kmem`, and the references `own` and `sh` that the kernel has. -/
structure Client where
  kmem : Kmem
  own : Nat → Nat
  sh : Nat → Nat

/-- The kernel takes a page, gives one back that it owns or shares, puts one that it owns into a page
table, shares one that is in a page table, ends the sharing in `CoW_handler`, or writes where the link was. -/
inductive Uses (ld : Vm.Linker) : Client → Client → Prop
  | kalloc (c : Client) :
      Uses ld c { c with kmem := kalloc c.kmem, own := c.own + c.kmem.freelist.elim 0 one }
  | kfreeOwned {k k' own sh p : _} : kfree ld (P2V (p * PGSIZE)) k = some k' → Uses ld ⟨k, own + one p, sh⟩ ⟨k', own, sh⟩
  | kfreeShared {k k' own sh p : _} : kfree ld (P2V (p * PGSIZE)) k = some k' → Uses ld ⟨k, own, sh + one p⟩ ⟨k', own, sh⟩
  | map {k own sh p : _} : Uses ld ⟨k, own + one p, sh⟩ ⟨k, own, sh + one p⟩
  | share {k own sh p : _} : 0 < sh p → (k.refc_cnt p).toInt < 0x7fffffff →
      Uses ld ⟨k, own, sh⟩ ⟨incr_refc (p * PGSIZE) k, own, sh + one p⟩
  | unshare {k own sh p : _} : 0 < sh p → Uses ld ⟨k, own, sh + one p⟩ ⟨decr_refc (p * PGSIZE) k, own, sh⟩
  | write {k own sh p : _} (x : Option Nat) : 0 < own p + sh p →
      Uses ld ⟨k, own, sh⟩ ⟨{ k with next := Function.update k.next p x }, own, sh⟩

/-- The links and the counts stand for a free list and for integers that agree with the references. -/
def Agrees (ld : Vm.Linker) (c : Client) : Prop :=
  ∃ s, Sim c.kmem s ∧ Vm.Acct (Vm.Managed ld) s c.own c.sh

theorem agrees_kfree {own' sh' : Nat → Nat} {k' : Kmem} (h : Agrees ld ⟨k, own, sh⟩) (hp : 0 < own p + sh p)
    (hk : kfree ld (P2V (p * PGSIZE)) k = some k')
    (hacct : ∀ s s', Vm.Acct (Vm.Managed ld) s own sh → Vm.kfree ld p s = .ok ((), s') →
      Vm.Acct (Vm.Managed ld) s' own' sh') : Agrees ld ⟨k', own', sh'⟩ := by
  obtain ⟨s, hsim, ha⟩ := h
  have hrun := Vm.kfree_of_managed (s := s) (ha.inDom p hp)
  obtain ⟨k'', hk'', hsim'⟩ := sim_kfree hsim ha hp hrun
  rw [hk] at hk''
  cases hk''
  exact ⟨_, hsim', hacct s _ ha hrun⟩

theorem agrees_uses {c c' : Client} (h : Agrees ld c) (hu : Uses ld c c') : Agrees ld c' := by
  cases hu with
  | kalloc =>
    obtain ⟨s, hsim, ha⟩ := h
    cases hrun : Vm.kalloc s with
    | error e =>
      unfold Vm.kalloc at hrun
      split at hrun <;> cases hrun
    | ok r =>
      obtain ⟨hr, hsim'⟩ := sim_kalloc hsim hrun
      refine ⟨r.2, hsim', ?_⟩
      rw [← hr]
      rcases r with ⟨_ | p, s'⟩
      · exact Vm.acct_kalloc_none ha hrun
      · exact (Vm.acct_kalloc ha hrun).2.2.2
  | kfreeOwned hk => exact agrees_kfree h (by simp) hk fun _ _ ha hrun => (Vm.acct_kfree_own ha hrun).1
  | kfreeShared hk => exact agrees_kfree h (by simp) hk fun _ _ ha hrun => (Vm.acct_kfree_sh ha hrun).1
  | map =>
    obtain ⟨s, hsim, ha⟩ := h
    exact ⟨s, hsim, Holds.publish ha⟩
  | share hp hlt =>
    obtain ⟨s, hsim, ha⟩ := h
    exact ⟨_, sim_incr_refc hsim (by rwa [hsim.refc] at hlt), Holds.retain ha hp⟩
  | unshare hp =>
    obtain ⟨s, hsim, ha⟩ := h
    have hrel := Holds.release ha hp
    exact ⟨_, sim_decr_refc hsim (by omega), hrel.2⟩
  | @write _ _ _ p x hp =>
    obtain ⟨s, hsim, ha⟩ := h
    have hnot : p ∉ s.freelist := fun hm => Nat.ne_of_gt hp ((ha.mem p).mp hm).2
    exact ⟨s, ⟨(chain_update x hnot).mpr hsim.chain, hsim.freecnt, hsim.refc⟩, ha⟩

end Xv6.Kalloc
