import SignalOS.Lib.Total
import SignalOS.Vm.Kvm
import SignalOS.Vm.Ownership

/-!
# The pages for page tables

`allockernelpage` hands out pages of the page allocator, or of the boot stage's 2 MiB before that
is there.

* `Kvm.fresh` — the pages that it will hand out; `FreshOk` — they are in order.
* `SameBoot` — what building page tables leaves alone.
* `allockernelpage_fresh` — **the next page is handed out**, in the boot stage and after it.
-/

namespace SignalOS

open Partial

/-- The physical addresses of the pages that `allockernelpage` will hand out, the next one
first. -/
def Kvm.fresh (k : Kvm) : List Uint64 :=
  if k.kallocInited then k.vm.freelist
  else (List.range ((k.initPageAllocatorBase.toNat + 0x200000 - k.initPageAllocator.toNat) /
    4096)).map fun i =>
    KVA_TO_PA (k.initPageAllocator + BitVec.ofNat 64 (4096 * i))

/-- The allocator is in order. -/
structure FreshOk (k : Kvm) : Prop where
  nodup : k.fresh.Nodup
  page : ∀ p ∈ k.fresh, PageStart p ∧ p ≠ 0 ∧ p.toNat < 2 ^ 56
  boot : k.kallocInited = false → PageStart k.initPageAllocatorBase ∧
    PageStart k.initPageAllocator ∧
    k.initPageAllocatorBase.toNat ≤ k.initPageAllocator.toNat ∧
    k.initPageAllocator.toNat ≤ k.initPageAllocatorBase.toNat + 0x200000 ∧
    k.initPageAllocatorBase.toNat + 0x200000 < 2 ^ 64

/-- What building page tables leaves alone. -/
structure SameBoot (k k' : Kvm) : Prop where
  base : k'.initPageAllocatorBase = k.initPageAllocatorBase
  inited : k'.kallocInited = k.kallocInited
  tops : k'.schedKstackTop = k.schedKstackTop
  list : k.kallocInited = false → k'.vm.freelist = k.vm.freelist
  fresh : k'.fresh <:+ k.fresh

namespace SameBoot

variable {k k₁ k₂ : Kvm}

theorem refl : SameBoot k k := ⟨rfl, rfl, rfl, fun _ => rfl, List.suffix_rfl⟩

theorem trans (h : SameBoot k k₁) (h' : SameBoot k₁ k₂) : SameBoot k k₂ where
  base := h'.base.trans h.base
  inited := h'.inited.trans h.inited
  tops := h'.tops.trans h.tops
  list hno := (h'.list (h.inited.trans hno)).trans (h.list hno)
  fresh := h'.fresh.trans h.fresh

theorem setPte {t i e : Uint64} : SameBoot k { k with vm := k.vm.setPte t i e } :=
  ⟨rfl, rfl, rfl, fun _ => rfl, List.suffix_rfl⟩

end SameBoot

theorem KVA_TO_PA_add (p : Uint64) : KVA_TO_PA (PA_TO_KVA p) = p := BitVec.add_sub_cancel ..

theorem PA_TO_KVA_sub (p : Uint64) : PA_TO_KVA (KVA_TO_PA p) = p := BitVec.sub_add_cancel ..

theorem PGALIGNED_of {a : Uint64} (h : PageStart a) : PGALIGNED a = true := by
  rw [PGALIGNED_iff]
  exact h

/-- The next page of the boot stage. -/
theorem fresh_boot {k : Kvm} {p : Uint64} {rest : List Uint64} (h : FreshOk k)
    (hboot : k.kallocInited = false)
    (hfresh : k.fresh = p :: rest) : p = KVA_TO_PA k.initPageAllocator ∧
      k.initPageAllocator.toNat + 4096 ≤ k.initPageAllocatorBase.toNat + 0x200000 ∧
      ({ k with initPageAllocator := k.initPageAllocator + PGSIZE } : Kvm).fresh = rest := by
  obtain ⟨hbase, hinit, hlo, hhi, hlt⟩ := h.boot hboot
  rw [PageStart] at hbase hinit
  have hnext : (k.initPageAllocator + PGSIZE).toNat = k.initPageAllocator.toNat + 4096 ∨
      k.initPageAllocator.toNat = k.initPageAllocatorBase.toNat + 0x200000 := by
    rw [BitVec.toNat_add, show PGSIZE.toNat = 4096 from rfl]
    omega
  rw [Kvm.fresh, hboot] at hfresh
  simp only [Bool.false_eq_true, if_false] at hfresh
  obtain ⟨n, hn⟩ : ∃ n, (k.initPageAllocatorBase.toNat + 0x200000 - k.initPageAllocator.toNat) /
      4096 = n + 1 := by
    refine Nat.exists_eq_succ_of_ne_zero fun hzero => ?_
    rw [hzero] at hfresh
    cases hfresh
  rw [hn, List.range_succ_eq_map, List.map_cons, List.cons.injEq, List.map_map] at hfresh
  obtain ⟨hp, hrest⟩ := hfresh
  refine ⟨?_, by omega, ?_⟩
  · rw [← hp, Nat.mul_zero]
    exact congrArg KVA_TO_PA (BitVec.add_zero _)
  · have hlen : (k.initPageAllocatorBase.toNat + 0x200000 - (k.initPageAllocator + PGSIZE).toNat) /
        4096 = n := by
      omega
    rw [Kvm.fresh]
    simp only [hboot, Bool.false_eq_true, if_false, hlen, ← hrest]
    refine List.map_congr_left fun i _ => ?_
    have hoff : PGSIZE + BitVec.ofNat 64 (4096 * i) = BitVec.ofNat 64 (4096 * (i + 1)) := by
      apply BitVec.eq_of_toNat_eq
      rw [BitVec.toNat_add, show PGSIZE.toNat = 4096 from rfl, BitVec.toNat_ofNat,
        BitVec.toNat_ofNat]
      omega
    rw [Function.comp_apply, BitVec.add_assoc, hoff]

theorem FreshOk.tail {k k' : Kvm} {p : Uint64} (h : FreshOk k) (hfresh : k.fresh = p :: k'.fresh)
    (hboot : k'.kallocInited = false →
      PageStart k'.initPageAllocatorBase ∧ PageStart k'.initPageAllocator ∧
      k'.initPageAllocatorBase.toNat ≤ k'.initPageAllocator.toNat ∧
      k'.initPageAllocator.toNat ≤ k'.initPageAllocatorBase.toNat + 0x200000 ∧
      k'.initPageAllocatorBase.toNat + 0x200000 < 2 ^ 64) : FreshOk k' := by
  have hnodup := h.nodup
  rw [hfresh, List.nodup_cons] at hnodup
  refine ⟨hnodup.2, fun q hq => h.page q ?_, hboot⟩
  rw [hfresh]
  exact List.mem_cons_of_mem _ hq

/-- **`allockernelpage` hands out the next page**, in the boot stage and after it. -/
theorem allockernelpage_fresh {k : Kvm} {p : Uint64} {rest : List Uint64} (h : FreshOk k)
    (hfresh : k.fresh = p :: rest) :
    Ends allockernelpage k fun r k' => r = PA_TO_KVA p ∧ k'.fresh = rest ∧ k'.vm.pte = k.vm.pte ∧
      FreshOk k' ∧
      SameBoot k k' := by
  have hmem : p ∈ k.fresh := by rw [hfresh]; exact List.mem_cons_self
  obtain ⟨hstart, hne, -⟩ := h.page p hmem
  refine .get_bind ?_
  cases hinit : k.kallocInited with
  | true =>
    have hlist : k.vm.freelist = p :: rest := by
      rw [Kvm.fresh, hinit] at hfresh
      exact hfresh
    set k' : Kvm :=
      { k with vm := { k.vm with freelist := rest, byte := memset k.vm.byte p 0xaf PGSIZE } } with
        hk'
    have halloc : onMemory kallocpage k = some (p, k') := by rw [onMemory, kallocpage, hlist]; rfl
    have hrest : k'.fresh = rest := by rw [Kvm.fresh, hk', hinit]; rfl
    refine .bind_of_eq halloc (.ite (fun hzero => absurd hzero hne) fun _ => .pure ⟨rfl, hrest,
      rfl, ?_, ?_⟩)
    · exact h.tail (by rw [hrest, hfresh]) fun hno => absurd (hinit.symm.trans hno) (by simp)
    · exact ⟨rfl, rfl, rfl, fun hno => absurd (hinit.symm.trans hno)
        (by simp), by rw [hrest, hfresh]; exact List.suffix_cons _ _⟩
  | false =>
    obtain ⟨hbase, hpage, hlo, -, hlt⟩ := h.boot hinit
    obtain ⟨hp, hroom, hrest⟩ := fresh_boot h hinit hfresh
    set k' : Kvm := { k with initPageAllocator := k.initPageAllocator + PGSIZE } with hk'
    have hend : (k.initPageAllocatorBase + PGSIZE_2M).toNat = k.initPageAllocatorBase.toNat +
        0x200000 := by
      rw [BitVec.toNat_add, show PGSIZE_2M.toNat = 0x200000 from rfl]
      omega
    have hnext : k'.initPageAllocator.toNat = k.initPageAllocator.toNat + 4096 := by
      rw [hk', BitVec.toNat_add, show PGSIZE.toNat = 4096 from rfl]
      omega
    refine .get_bind (.bind_of_eq (t := k) (a := ⟨⟩) ?_ (.bind_of_eq (t := k) (a := ⟨⟩) ?_
      (.bind_of_eq (t := k) (a := ⟨⟩) ?_ (.modify_bind (.pure ⟨?_, hrest, rfl, ?_, ?_⟩)))))
    · rw [kvmAssert, if_pos (decide_eq_true (BitVec.le_def.2 hlo))]
      rfl
    · have hin : k.initPageAllocator < k.initPageAllocatorBase + PGSIZE_2M :=
        BitVec.lt_def.2 (by rw [hend]; omega)
      rw [kvmAssert, if_pos (decide_eq_true hin)]
      rfl
    · rw [kvmAssert, if_pos (PGALIGNED_of hpage)]
      rfl
    · rw [hp, PA_TO_KVA_sub]
    · refine h.tail (by rw [hrest]; exact hfresh) fun _ => ⟨hbase, ?_, ?_, ?_, hlt⟩
      · rw [PageStart] at hpage
        rw [PageStart, hnext]
        omega
      · rw [hnext]
        exact Nat.le_add_right_of_le hlo
      · rw [hnext]
        exact hroom
    · exact ⟨rfl, rfl, rfl, fun _ => rfl, by rw [hrest, hfresh]; exact List.suffix_cons _ _⟩

end SignalOS
