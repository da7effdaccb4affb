import Mathlib.Data.List.Range
import SignalOS.Lib.Links
import SignalOS.Lib.Partial
import SignalOS.Vm.Words

/-!
# The object allocator

`allocator_init`, `kalloc` and `kfree` of `kalloc.c` on the bytes of the kernel's
virtual memory: the free list of an allocator is threaded through headers that stand
in front of the objects, and every operation fills with junk what it hands over.

* `Heap` — the memory, `allocator_mapped_va` and the pages that are left.
* `allocatorInit`, `Allocator.kalloc`, `Allocator.kfree` — the source's functions; they
  take and return the `struct allocator`.
* `Laid` — where the objects of a pool are; they and their headers are apart.
-/

namespace SignalOS

open Partial

/-- `ROUNDUP_2N(sz, base)`. -/
def ROUNDUP_2N (sz base : Uint64) : Uint64 := (sz + base - 1) &&& ~~~(base - 1)

def KERNEL_ALLOCATOR_BASE : Uint64 := 0xfffffffd00000000
def KERNEL_ALLOCATOR_GAP : Uint64 := 0x0000000001000000
def KERNEL_STACK_PROCS : Uint64 := 0xfffffffe00000000

/-! ## The source's functions -/

/-- What the object allocators work on. -/
structure Heap where
  /-- The bytes of the kernel's virtual memory. -/
  byte : Uint64 → Byte
  /-- `allocator_mapped_va`. -/
  allocatorMappedVa : Uint64
  /-- How many pages `kallocpage` can still hand out. -/
  freepages : Nat

/-- A computation on the kernel's heap; `none` is a panic. -/
abbrev HeapM := StateT Heap Option

/-- `panic(...)` and a failed `assert`. -/
def heapAssert (x : Bool) : HeapM Unit := if x then pure () else fun _ => none

theorem heapAssert_true : heapAssert true = pure () := rfl

/-- `struct allocator`, without its name and its lock. -/
structure Allocator where
  freelist : Uint64
  poolBase : Uint64
  poolEnd : Uint64
  objectSize : Uint64
  objectSizeAligned : Uint64
  allocatedCount : Uint64
  availableCount : Uint64
  maxCount : Uint64

/-- `sizeof(struct linklist)`. -/
def headerSize : Uint64 := 8

/-- Back `[va, poolEnd)` with junk-filled pages, in at most `n` turns. -/
def mapPool (poolEnd : Uint64) : Nat → Uint64 → HeapM Unit
  | 0, _ => pure ()
  | n + 1, va =>
    if va < poolEnd then do
      let h ← get
      heapAssert (h.freepages != 0)
      set { h with freepages := h.freepages - 1, byte := memset h.byte va 0xf8 PGSIZE }
      mapPool poolEnd n (va + PGSIZE)
    else pure ()

/-- Put `n` objects, the first one with its header at `addr`, in front of a free list. -/
def threadPool (alloc : Allocator) : Nat → Uint64 → Uint64 → HeapM Uint64
  | 0, _, freelist => pure freelist
  | n + 1, addr, freelist => do
    heapAssert (addr + alloc.objectSizeAligned ≤ alloc.poolEnd)
    modify fun h => { h with byte := storeWord h.byte addr freelist }
    threadPool alloc n (addr + alloc.objectSizeAligned) addr

/-- `allocator_init(alloc, name, object_size, count)`: the allocator it leaves in `alloc`. -/
def allocatorInit (objectSize count : Uint64) : HeapM Allocator := do
  let objectSizeAligned := ROUNDUP_2N (objectSize + headerSize) 8
  heapAssert (count ≤ PGSIZE * 8)
  let totalSize := PGROUNDUP (objectSizeAligned * count)
  let h ← get
  let alloc : Allocator := {
    freelist := 0, objectSize, objectSizeAligned, maxCount := count
    poolBase := h.allocatorMappedVa, poolEnd := h.allocatorMappedVa + totalSize
    availableCount := count, allocatedCount := 0 }
  set { h with
    allocatorMappedVa := h.allocatorMappedVa + ROUNDUP_2N totalSize KERNEL_ALLOCATOR_GAP }
  -- the loop ends at `pool_end`, which is this many pages further on
  mapPool alloc.poolEnd (totalSize.toNat / 4096) alloc.poolBase
  let freelist ← threadPool alloc count.toNat alloc.poolBase 0
  return { alloc with freelist }

/-- `kalloc(alloc)`. -/
def Allocator.kalloc (alloc : Allocator) : HeapM (Uint64 × Allocator) := do
  heapAssert (alloc.availableCount != 0)
  let l := alloc.freelist
  heapAssert (l != 0)
  let h ← get
  let ret := l + headerSize
  set { h with byte := memset (memset h.byte l 0xff headerSize) ret 0xfe alloc.objectSize }
  return (ret, { alloc with
    freelist := loadWord h.byte l
    availableCount := alloc.availableCount - 1, allocatedCount := alloc.allocatedCount + 1 })

/-- `kfree(alloc, obj)`. -/
def Allocator.kfree (alloc : Allocator) (obj : Uint64) : HeapM Allocator :=
  if obj = 0 then pure alloc else do
    heapAssert (alloc.poolBase ≤ obj && obj < alloc.poolEnd)
    let l := obj - headerSize
    modify fun h =>
      { h with byte := storeWord (memset h.byte obj 0xfa alloc.objectSize) l alloc.freelist }
    let alloc := { alloc with
      freelist := l, allocatedCount := alloc.allocatedCount - 1, availableCount :=
        alloc.availableCount + 1 }
    heapAssert (alloc.allocatedCount + alloc.availableCount == alloc.maxCount)
    return alloc

/-- What `kalloc` does when there is an object. -/
theorem Allocator.kalloc_run {alloc : Allocator} (s : Heap) (hpos : alloc.availableCount ≠ 0)
    (hne : alloc.freelist ≠ 0) :
    alloc.kalloc s = some ((alloc.freelist + headerSize, { alloc with
        freelist := loadWord s.byte alloc.freelist
        availableCount := alloc.availableCount - 1, allocatedCount := alloc.allocatedCount + 1 }),
      { s with
        byte := memset (memset s.byte alloc.freelist 0xff headerSize)
          (alloc.freelist + headerSize) 0xfe
          alloc.objectSize }) := by
  have hpos : (alloc.availableCount != 0) = true := bne_iff_ne.2 hpos
  have hne : (alloc.freelist != 0) = true := bne_iff_ne.2 hne
  simp only [Allocator.kalloc, hpos, hne, heapAssert_true]
  rfl

/-- What `kfree` does when its assertions hold. -/
theorem Allocator.kfree_run {alloc : Allocator} {obj : Uint64} (s : Heap) (hne : obj ≠ 0)
    (hlo : alloc.poolBase ≤ obj)
    (hhi : obj < alloc.poolEnd)
    (hsum : alloc.allocatedCount - 1 + (alloc.availableCount + 1) = alloc.maxCount) :
    alloc.kfree obj s = some ({ alloc with
        freelist := obj - headerSize
        allocatedCount := alloc.allocatedCount - 1, availableCount := alloc.availableCount + 1 },
      { s with
        byte := storeWord (memset s.byte obj 0xfa alloc.objectSize) (obj - headerSize)
          alloc.freelist }) := by
  have hin : (decide (alloc.poolBase ≤ obj) && decide (obj < alloc.poolEnd)) = true := by
    rw [decide_eq_true hlo, decide_eq_true hhi]
    rfl
  have hsum : (alloc.allocatedCount - 1 + (alloc.availableCount + 1) == alloc.maxCount) = true :=
    beq_iff_eq.2 hsum
  simp only [Allocator.kfree, if_neg hne, hin, hsum, heapAssert_true]
  rfl

/-- The pointer that is freed passed the assertion. -/
theorem Allocator.kfree_inside {alloc alloc' : Allocator} {obj : Uint64} {s s' : Heap}
    (hne : obj ≠ 0)
    (h : alloc.kfree obj s = some (alloc', s')) : obj < alloc.poolEnd := by
  rw [Allocator.kfree, if_neg hne] at h
  obtain ⟨_, _, hassert, -⟩ := bind_eq_some.1 h
  by_contra hout
  have hfalse : (decide (alloc.poolBase ≤ obj) && decide (obj < alloc.poolEnd)) = false := by
    rw [decide_eq_false hout, Bool.and_false]
  rw [hfalse] at hassert
  cases hassert

/-! ## Rounding -/

/-- Rounding up to a power of two. -/
theorem toNat_ROUNDUP_2N {sz base : Uint64} {k : Nat} (hbase : base.toNat = 2 ^ k)
    (hmask : ∀ i < 64, (~~~(base - 1)).getLsbD i = decide (k ≤ i))
    (hfit : sz.toNat + 2 ^ k ≤ 2 ^ 64) :
    (ROUNDUP_2N sz base).toNat = (sz.toNat + 2 ^ k - 1) / 2 ^ k * 2 ^ k := by
  have hpos : 0 < 2 ^ k := Nat.two_pow_pos k
  have hsum : (sz + base - 1).toNat = sz.toNat + 2 ^ k - 1 := by
    rw [BitVec.toNat_sub, BitVec.toNat_add, hbase, show (1 : Uint64).toNat = 1 from rfl]
    omega
  rw [ROUNDUP_2N, toNat_and_mask hmask, hsum]

/-- The bytes of a pool: every object has a header, and both end at a multiple of eight. -/
def poolBytes (objectSize count : Uint64) : Nat :=
  ((objectSize.toNat + 15) / 8 * 8 * count.toNat + 4095) / 4096 * 4096

/-- No step of the computation of a pool's size overflows when the pool is of a reasonable size. -/
theorem toNat_totalSize {objectSize count : Uint64} (h : poolBytes objectSize count < 2 ^ 60) :
    (PGROUNDUP (ROUNDUP_2N (objectSize + headerSize) 8 * count)).toNat =
      poolBytes objectSize count ∧
      (count.toNat = 0 ∨
        (ROUNDUP_2N (objectSize + headerSize) 8).toNat = (objectSize.toNat + 15) / 8 * 8) := by
  rcases Nat.eq_zero_or_pos count.toNat with hzero | hpos
  · obtain rfl : count = 0 := BitVec.eq_of_toNat_eq hzero
    refine ⟨?_, .inl rfl⟩
    have hmul : ROUNDUP_2N (objectSize + headerSize) 8 * 0 = 0 := BitVec.mul_zero
    rw [poolBytes, hmul, hzero, Nat.mul_zero]
    rfl
  · have hle : (objectSize.toNat + 15) / 8 * 8 ≤ (objectSize.toNat + 15) / 8 * 8 * count.toNat :=
      Nat.le_mul_of_pos_right _ hpos
    rw [poolBytes] at h ⊢
    have hsum : (objectSize + headerSize).toNat = objectSize.toNat + 8 := by
      rw [BitVec.toNat_add, show headerSize.toNat = 8 from rfl]
      omega
    have hsize : (ROUNDUP_2N (objectSize + headerSize) 8).toNat = (objectSize.toNat + 15) /
        8 * 8 := by
      rw [toNat_ROUNDUP_2N (k := 3) rfl (by decide) (by omega), hsum]
      omega
    have hmul : (ROUNDUP_2N (objectSize + headerSize) 8 * count).toNat
        = (objectSize.toNat + 15) / 8 * 8 * count.toNat := by
      rw [BitVec.toNat_mul, hsize]
      omega
    refine ⟨?_, .inr hsize⟩
    rw [show PGROUNDUP = fun sz => ROUNDUP_2N sz PGSIZE from rfl,
      toNat_ROUNDUP_2N (k := 12) rfl (by decide) (by omega), hmul]
    omega

/-! ## The layout of a pool -/

/-- The address of the header of the `k`-th object. -/
def Allocator.header (alloc : Allocator) (k : Nat) : Uint64 :=
  alloc.poolBase + BitVec.ofNat 64 (k * alloc.objectSizeAligned.toNat)

/-- The address of the `k`-th object. -/
def Allocator.object (alloc : Allocator) (k : Nat) : Uint64 := alloc.header k + headerSize

/-- The objects of a pool, with their headers, have room in it. -/
structure Laid (alloc : Allocator) : Prop where
  base_pos : 0 < alloc.poolBase.toNat
  base_aligned : alloc.poolBase.toNat % 8 = 0
  size_aligned : alloc.objectSizeAligned.toNat % 8 = 0
  room : alloc.maxCount.toNat = 0 ∨ alloc.objectSize.toNat + 8 ≤ alloc.objectSizeAligned.toNat
  fits : alloc.poolBase.toNat + alloc.maxCount.toNat * alloc.objectSizeAligned.toNat ≤
    alloc.poolEnd.toNat

/-- The two allocators have the same pool. -/
structure SamePool (alloc alloc' : Allocator) : Prop where
  base : alloc'.poolBase = alloc.poolBase
  stop : alloc'.poolEnd = alloc.poolEnd
  size : alloc'.objectSize = alloc.objectSize
  step : alloc'.objectSizeAligned = alloc.objectSizeAligned
  count : alloc'.maxCount = alloc.maxCount

theorem SamePool.header {alloc alloc' : Allocator} (h : SamePool alloc alloc') :
    alloc'.header = alloc.header := by
  funext k
  rw [Allocator.header, Allocator.header, h.base, h.step]

theorem SamePool.object {alloc alloc' : Allocator} (h : SamePool alloc alloc') :
    alloc'.object = alloc.object := by
  funext k
  rw [Allocator.object, Allocator.object, h.header]

theorem SamePool.laid {alloc alloc' : Allocator} (h : SamePool alloc alloc') (hl : Laid alloc) :
    Laid alloc' where
  base_pos := h.base ▸ hl.base_pos
  base_aligned := h.base ▸ hl.base_aligned
  size_aligned := h.step ▸ hl.size_aligned
  room := by rw [h.count, h.size, h.step]; exact hl.room
  fits := by rw [h.base, h.count, h.step, h.stop]; exact hl.fits

/-- Later objects begin behind the end of earlier ones. -/
theorem slot_le {j k : Nat} (size : Nat) (h : j < k) : j * size + size ≤ k * size := by
  calc j * size + size = (j + 1) * size := (Nat.succ_mul j size).symm
    _ ≤ k * size := Nat.mul_le_mul_right size h

namespace Laid

variable {alloc : Allocator} {j k : Nat}

theorem size (h : Laid alloc) (hk : k < alloc.maxCount.toNat) :
    alloc.objectSize.toNat + 8 ≤ alloc.objectSizeAligned.toNat := by
  have := h.room
  omega

theorem toNat_header (h : Laid alloc) (hk : k < alloc.maxCount.toNat) :
    (alloc.header k).toNat = alloc.poolBase.toNat + k * alloc.objectSizeAligned.toNat := by
  have hslot := slot_le alloc.objectSizeAligned.toNat hk
  have hfits := h.fits
  have hsize := h.size hk
  have hend : alloc.poolEnd.toNat < 2 ^ 64 := alloc.poolEnd.isLt
  rw [Allocator.header, BitVec.toNat_add, BitVec.toNat_ofNat]
  omega

/-- The whole of an object lies in the pool. -/
theorem header_le (h : Laid alloc) (hk : k < alloc.maxCount.toNat) :
    (alloc.header k).toNat + 8 + alloc.objectSize.toNat ≤ alloc.poolEnd.toNat := by
  have hslot := slot_le alloc.objectSizeAligned.toNat hk
  have hfits := h.fits
  have hsize := h.size hk
  rw [h.toNat_header hk]
  omega

theorem toNat_object (h : Laid alloc) (hk : k < alloc.maxCount.toNat) :
    (alloc.object k).toNat = (alloc.header k).toNat + 8 := by
  have hle := h.header_le hk
  have hend : alloc.poolEnd.toNat < 2 ^ 64 := alloc.poolEnd.isLt
  rw [Allocator.object, BitVec.toNat_add, show headerSize.toNat = 8 from rfl]
  omega

theorem header_mod (h : Laid alloc) (hk : k < alloc.maxCount.toNat) :
    (alloc.header k).toNat % 8 = 0 := by
  have hdvd : 8 ∣ k * alloc.objectSizeAligned.toNat :=
    (Nat.dvd_of_mod_eq_zero h.size_aligned).mul_left k
  have hbase := h.base_aligned
  rw [h.toNat_header hk]
  omega

theorem base_le (h : Laid alloc) (hk : k < alloc.maxCount.toNat) :
    alloc.poolBase.toNat ≤ (alloc.header k).toNat := by
  rw [h.toNat_header hk]
  exact Nat.le_add_right _ _

/-- Two objects and their headers are apart. -/
theorem apart (h : Laid alloc) (hj : j < alloc.maxCount.toNat) (hk : k < alloc.maxCount.toNat)
    (hne : j ≠ k) :
    (alloc.header j).toNat + 8 + alloc.objectSize.toNat ≤ (alloc.header k).toNat ∨
      (alloc.header k).toNat + 8 + alloc.objectSize.toNat ≤ (alloc.header j).toNat := by
  have hsize := h.size hk
  rw [h.toNat_header hj, h.toNat_header hk]
  rcases Nat.lt_or_gt_of_ne hne with hlt | hlt
  · have := slot_le alloc.objectSizeAligned.toNat hlt
    omega
  · have := slot_le alloc.objectSizeAligned.toNat hlt
    omega

theorem header_ne_zero (h : Laid alloc) (hk : k < alloc.maxCount.toNat) : alloc.header k ≠ 0 := by
  intro hzero
  have hbase := h.base_le hk
  have hpos := h.base_pos
  rw [hzero] at hbase
  exact absurd hbase (Nat.not_le.2 hpos)

theorem object_ne_zero (h : Laid alloc) (hk : k < alloc.maxCount.toNat) : alloc.object k ≠ 0 := by
  intro hzero
  have hobj := h.toNat_object hk
  rw [hzero] at hobj
  exact absurd hobj (by simp)

end Laid

end SignalOS
