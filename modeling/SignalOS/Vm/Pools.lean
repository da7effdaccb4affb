import Mathlib.Data.List.Perm.Basic
import SignalOS.Lib.Runs
import SignalOS.Vm.Kalloc

/-!
# Runs of the object allocators

All object allocators of the kernel together with the code that uses them: allocators
are set up, objects taken and given back, and taken objects overwritten, in any order.

* `Pools` — the heap and every allocator with its objects in use; `Pools.step` — one
  operation on them, `Pools.Ok` — what the users of the allocators promise.
* `Held` — the invariant of one allocator: a free list threaded through the headers of
  the slots that are not in use.  `Held.kalloc`, `Held.kfree`, `Held.frame` — what the
  operations do to it.
* `objects_apart` — in every state of every such run objects, headers and pools are
  apart, the counters are exact and the free lists are safe from what is stored in
  objects.
-/

namespace SignalOS

open Partial LittleEndian Links

/-! ## Setting up an allocator -/

/-- Backing a pool with pages writes to the pool only. -/
theorem mapPool_run {poolEnd va : Uint64} {n : Nat} {s s' : Heap}
    (hend : va.toNat + n * 4096 = poolEnd.toNat)
    (h : mapPool poolEnd n va s = some ((), s')) :
    Differ va.toNat poolEnd.toNat s.byte s'.byte ∧ s'.allocatorMappedVa = s.allocatorMappedVa := by
  induction n generalizing va s with
  | zero =>
    obtain ⟨-, rfl⟩ := pure_eq_some.1 h
    exact ⟨Differ.refl, rfl⟩
  | succ n ih =>
    have hlt : va < poolEnd := BitVec.lt_def.2 (by omega)
    have hmax : poolEnd.toNat < 2 ^ 64 := poolEnd.isLt
    rw [mapPool, if_pos hlt] at h
    rw [Partial.get_bind] at h
    cases hpages : s.freepages != 0 with
    | false =>
      rw [hpages] at h
      exact absurd h (by simp [heapAssert, Bind.bind, StateT.bind])
    | true =>
      have hnext : (va + PGSIZE).toNat = va.toNat + 4096 := by
        rw [BitVec.toNat_add, show PGSIZE.toNat = 4096 from rfl]
        omega
      rw [hpages, heapAssert_true] at h
      obtain ⟨hrest, hmapped⟩ := ih (by omega) h
      have hpage :=
        @Differ.memset s.byte va PGSIZE 0xf8 (by rw [show PGSIZE.toNat = 4096 from rfl]; omega)
      rw [show PGSIZE.toNat = 4096 from rfl] at hpage
      exact ⟨(hpage.mono le_rfl (by omega)).trans (hrest.mono (by omega) le_rfl), hmapped⟩

/-- After `j` objects the free list has them, the last one first. -/
theorem threadPool_run {alloc : Allocator} (hl : Laid alloc) {n j : Nat} {s : Heap} {fl : Uint64}
    (hsum : j + n = alloc.maxCount.toNat)
    (hpath : Path (loadWord s.byte) fl ((List.range j).reverse.map alloc.header) 0) :
    ∃ m' fl', threadPool alloc n (alloc.header j) fl s = some (fl', { s with byte := m' }) ∧
      Path (loadWord m') fl' ((List.range alloc.maxCount.toNat).reverse.map alloc.header) 0 ∧
      Differ alloc.poolBase.toNat alloc.poolEnd.toNat s.byte m' := by
  induction n generalizing j s fl with
  | zero =>
    obtain rfl : j = alloc.maxCount.toNat := by omega
    exact ⟨s.byte, fl, rfl, hpath, Differ.refl⟩
  | succ n ih =>
    have hj : j < alloc.maxCount.toNat := by omega
    have hle := hl.header_le hj
    have hbase := hl.base_le hj
    have hsize := hl.size hj
    have hmax : alloc.poolEnd.toNat < 2 ^ 64 := alloc.poolEnd.isLt
    have hslot := slot_le alloc.objectSizeAligned.toNat hj
    have hfits := hl.fits
    have hnext : alloc.header j + alloc.objectSizeAligned = alloc.header (j + 1) := by
      rw [Allocator.header, Allocator.header, Nat.succ_mul, BitVec.ofNat_add, ← BitVec.add_assoc,
        BitVec.ofNat_toNat, BitVec.setWidth_eq]
    have hassert : decide (alloc.header j + alloc.objectSizeAligned ≤ alloc.poolEnd) = true := by
      refine decide_eq_true (BitVec.le_def.2 ?_)
      rw [BitVec.toNat_add, hl.toNat_header hj]
      omega
    have hstore := @Differ.storeWord s.byte (alloc.header j) fl (by omega)
    have hcell : Path (loadWord (storeWord s.byte (alloc.header j) fl)) (alloc.header j)
        ((List.range (j + 1)).reverse.map alloc.header) 0 := by
      rw [List.range_succ, List.reverse_append, List.reverse_singleton, List.singleton_append,
        List.map_cons]
      refine ⟨rfl, ?_⟩
      rw [loadWord_storeWord]
      refine hpath.congr fun x hx => ?_
      obtain ⟨i, hi, rfl⟩ := List.mem_map.1 hx
      have hij : i < j := List.mem_range.1 (List.mem_reverse.1 hi)
      have hlei := hl.header_le (hij.trans hj)
      have hapart := hl.apart (hij.trans hj) hj hij.ne
      exact hstore.loadWord (by omega) (by omega)
    obtain ⟨m', fl', hrun, hpath', hdiffer⟩ :=
      @ih (j + 1) { s with byte := storeWord s.byte (alloc.header j) fl }
        (alloc.header j) (by omega) hcell
    refine ⟨m', fl', ?_, hpath', (hstore.mono hbase (by omega)).trans hdiffer⟩
    rw [threadPool, hassert, heapAssert_true, hnext, ← hrun]
    rfl

/-! ## One allocator -/

/-- The slots `free` are threaded on the free list of an allocator and the slots
`live` are in use. -/
structure Held (alloc : Allocator) (m : Uint64 → Byte) (free live : List Nat) : Prop where
  laid : Laid alloc
  count : alloc.maxCount.toNat ≤ 32768
  slots : (free ++ live).Perm (List.range alloc.maxCount.toNat)
  chain : Path (loadWord m) alloc.freelist (free.map alloc.header) 0
  available : alloc.availableCount.toNat = free.length
  allocated : alloc.allocatedCount.toNat = live.length

namespace Held

variable {alloc : Allocator} {m m' : Uint64 → Byte} {free live rest : List Nat} {k lo hi : Nat}

theorem lt_of_free (h : Held alloc m free live) (hk : k ∈ free) : k < alloc.maxCount.toNat :=
  List.mem_range.1 (h.slots.subset (List.mem_append_left _ hk))

theorem lt_of_live (h : Held alloc m free live) (hk : k ∈ live) : k < alloc.maxCount.toNat :=
  List.mem_range.1 (h.slots.subset (List.mem_append_right _ hk))

theorem nodup (h : Held alloc m free live) : (free ++ live).Nodup :=
  h.slots.nodup_iff.2 List.nodup_range

theorem ne (h : Held alloc m free live) {j : Nat} (hj : j ∈ free) (hk : k ∈ live) : j ≠ k :=
  fun heq => (List.nodup_append.1 h.nodup).2.2 j hj k hk heq

theorem length (h : Held alloc m free live) :
    free.length + live.length = alloc.maxCount.toNat := by
  have := h.slots.length_eq
  rwa [List.length_append, List.length_range] at this

/-- The free list survives writes that miss its headers. -/
theorem chain_frame (h : Held alloc m free live) (hm : Differ lo hi m m')
    (hrest : ∀ j ∈ rest, j ∈ free)
    (hmiss : ∀ j ∈ rest, (alloc.header j).toNat + 8 ≤ lo ∨ hi ≤ (alloc.header j).toNat)
    {a : Uint64}
    (hpath : Path (loadWord m) a (rest.map alloc.header) 0) :
    Path (loadWord m') a (rest.map alloc.header) 0 := by
  refine hpath.congr fun x hx => ?_
  obtain ⟨j, hj, rfl⟩ := List.mem_map.1 hx
  have hle := h.laid.header_le (h.lt_of_free (hrest j hj))
  have hend : alloc.poolEnd.toNat < 2 ^ 64 := alloc.poolEnd.isLt
  exact hm.loadWord (by omega) (hmiss j hj)

/-- Writes that miss the headers on the free list leave the allocator as it is. -/
theorem frame (h : Held alloc m free live) (hm : Differ lo hi m m')
    (hmiss : ∀ j ∈ free, (alloc.header j).toNat + 8 ≤ lo ∨ hi ≤ (alloc.header j).toNat) :
    Held alloc m' free live :=
  { h with chain := h.chain_frame hm (fun _ hj => hj) hmiss h.chain }

/-- Writes inside a slot in use leave the free list as it is. -/
theorem frame_live (h : Held alloc m free live) (hk : k ∈ live) (hm : Differ lo hi m m')
    (hlo : (alloc.header k).toNat ≤ lo)
    (hhi : hi ≤ (alloc.header k).toNat + 8 + alloc.objectSize.toNat) :
    Held alloc m' free live := by
  refine h.frame hm fun j hj => ?_
  have := h.laid.apart (h.lt_of_free hj) (h.lt_of_live hk) (h.ne hj hk)
  omega

/-- So do writes outside of the pool. -/
theorem frame_pool (h : Held alloc m free live) (hm : Differ lo hi m m')
    (hout : alloc.poolEnd.toNat ≤ lo ∨ hi ≤ alloc.poolBase.toNat) : Held alloc m' free live := by
  refine h.frame hm fun j hj => ?_
  have hle := h.laid.header_le (h.lt_of_free hj)
  have hbase := h.laid.base_le (h.lt_of_free hj)
  omega

/-- **An empty allocator is one whose objects are all in use.** -/
theorem kalloc_none (h : Held alloc m [] live) {s : Heap} :
    alloc.kalloc s = none ∧ live.length = alloc.maxCount.toNat := by
  have hzero : alloc.availableCount = 0 := BitVec.eq_of_toNat_eq h.available
  refine ⟨?_, by simpa using h.length⟩
  simp only [Allocator.kalloc, hzero]
  rfl

/-- **An object is taken off the free list.** -/
theorem kalloc (s : Heap) (h : Held alloc s.byte (k :: rest) live) :
    ∃ m' alloc', alloc.kalloc s = some ((alloc.object k, alloc'), { s with byte := m' }) ∧
      SamePool alloc alloc' ∧ Held alloc' m' rest (k :: live) ∧
      Differ (alloc.header k).toNat ((alloc.header k).toNat + 8 + alloc.objectSize.toNat) s.byte
        m' := by
  have hk := h.lt_of_free List.mem_cons_self
  have hle := h.laid.header_le hk
  have hobj := h.laid.toNat_object hk
  have hend : alloc.poolEnd.toNat < 2 ^ 64 := alloc.poolEnd.isLt
  have hcount := h.count
  have hlength := h.length
  have havail := h.available
  have halloc := h.allocated
  rw [List.length_cons] at hlength havail
  obtain ⟨hhead, htail⟩ := h.chain
  set m' :=
    memset (memset s.byte (alloc.header k) 0xff headerSize) (alloc.object k) 0xfe
      alloc.objectSize with hm'
  have hdiffer : Differ (alloc.header k).toNat ((alloc.header k).toNat + 8 +
      alloc.objectSize.toNat) s.byte m' := by
    have hfirst := @Differ.memset s.byte (alloc.header k) headerSize 0xff (by
      rw [show headerSize.toNat = 8 from rfl]; omega)
    have hsecond :=
      @Differ.memset (memset s.byte (alloc.header k) 0xff headerSize) (alloc.object k)
        alloc.objectSize
        0xfe (by omega)
    rw [show headerSize.toNat = 8 from rfl] at hfirst
    exact (hfirst.mono le_rfl (by omega)).trans (hsecond.mono (by omega) (by omega))
  have hne : alloc.freelist ≠ 0 := by
    rw [hhead]
    exact h.laid.header_ne_zero hk
  have hpos : alloc.availableCount ≠ 0 := by
    intro hzero
    rw [hzero] at havail
    exact absurd havail (by simp)
  set alloc' : Allocator := { alloc with
    freelist := loadWord s.byte (alloc.header k)
    availableCount := alloc.availableCount - 1, allocatedCount :=
      alloc.allocatedCount + 1 } with halloc'
  have hpool : SamePool alloc alloc' := ⟨rfl, rfl, rfl, rfl, rfl⟩
  have hrun : alloc.kalloc s = some ((alloc.object k, alloc'), { s with byte := m' }) := by
    rw [hm', halloc', Allocator.object, ← hhead]
    exact alloc.kalloc_run s hpos hne
  refine ⟨m', alloc', hrun, hpool, ⟨hpool.laid h.laid, hcount, List.perm_middle.trans h.slots, ?_,
    ?_, ?_⟩, hdiffer⟩
  · rw [hpool.header]
    refine h.chain_frame hdiffer (fun j hj => List.mem_cons_of_mem _ hj) (fun j hj => ?_) htail
    have hne : j ≠ k := by
      have := (List.nodup_cons.1 h.nodup).1
      exact fun heq => this (heq ▸ List.mem_append_left _ hj)
    have := h.laid.apart (h.lt_of_free (List.mem_cons_of_mem _ hj)) hk hne
    omega
  · rw [BitVec.toNat_sub, show (1 : Uint64).toNat = 1 from rfl]
    omega
  · rw [BitVec.toNat_add, show (1 : Uint64).toNat = 1 from rfl, List.length_cons]
    omega

/-- **An object goes back to the free list.** -/
theorem kfree (s : Heap) (h : Held alloc s.byte free live) (hk : k ∈ live)
    (hin : alloc.object k < alloc.poolEnd) :
    ∃ m' alloc', alloc.kfree (alloc.object k) s = some (alloc', { s with byte := m' }) ∧
      SamePool alloc alloc' ∧ Held alloc' m' (k :: free) (live.erase k) ∧
      Differ (alloc.header k).toNat ((alloc.header k).toNat + 8 + alloc.objectSize.toNat) s.byte
        m' := by
  have hlt := h.lt_of_live hk
  have hle := h.laid.header_le hlt
  have hobj := h.laid.toNat_object hlt
  have hbase := h.laid.base_le hlt
  have hend : alloc.poolEnd.toNat < 2 ^ 64 := alloc.poolEnd.isLt
  have hcount := h.count
  have hlength := h.length
  have havail := h.available
  have halloc := h.allocated
  have hpos : 0 < live.length := List.length_pos_of_mem hk
  have hheader : alloc.object k - headerSize = alloc.header k := BitVec.add_sub_cancel _ _
  set m' :=
    storeWord (memset s.byte (alloc.object k) 0xfa alloc.objectSize) (alloc.header k)
      alloc.freelist with hm'
  have hdiffer : Differ (alloc.header k).toNat ((alloc.header k).toNat + 8 +
      alloc.objectSize.toNat) s.byte m' := by
    have hfirst := @Differ.memset s.byte (alloc.object k) alloc.objectSize 0xfa (by omega)
    have hsecond :=
      @Differ.storeWord (memset s.byte (alloc.object k) 0xfa alloc.objectSize) (alloc.header k)
        alloc.freelist (by omega)
    exact (hfirst.mono (by omega) (by omega)).trans (hsecond.mono le_rfl (by omega))
  have hsum : alloc.allocatedCount - 1 + (alloc.availableCount + 1) = alloc.maxCount := by
    apply BitVec.eq_of_toNat_eq
    rw [BitVec.toNat_add, BitVec.toNat_sub, BitVec.toNat_add, show (1 : Uint64).toNat = 1 from rfl]
    omega
  have hne : alloc.object k ≠ 0 := h.laid.object_ne_zero hlt
  set alloc' : Allocator := { alloc with
    freelist := alloc.header k
    allocatedCount := alloc.allocatedCount - 1, availableCount :=
      alloc.availableCount + 1 } with halloc'
  have hpool : SamePool alloc alloc' := ⟨rfl, rfl, rfl, rfl, rfl⟩
  have hrun : alloc.kfree (alloc.object k) s = some (alloc', { s with byte := m' }) := by
    rw [hm', halloc', ← hheader]
    exact alloc.kfree_run s hne (BitVec.le_def.2 (by omega)) hin hsum
  refine ⟨m', alloc', hrun, hpool, ⟨hpool.laid h.laid, hcount, ?_, ?_, ?_, ?_⟩, hdiffer⟩
  · calc k :: free ++ live.erase k
        |>.Perm (free ++ k :: live.erase k) := List.perm_middle.symm
      _ |>.Perm (free ++ live) := (List.perm_cons_erase hk).symm.append_left free
      _ |>.Perm _ := h.slots
  · refine ⟨rfl, ?_⟩
    rw [hpool.header, hm', loadWord_storeWord, ← hm']
    exact (h.frame_live hk hdiffer le_rfl le_rfl).chain
  · rw [BitVec.toNat_add, show (1 : Uint64).toNat = 1 from rfl, List.length_cons]
    omega
  · rw [BitVec.toNat_sub, show (1 : Uint64).toNat = 1 from rfl, List.length_erase_of_mem hk]
    omega

/-- **A new allocator has all its objects on the free list.** -/
theorem init {objectSize count : Uint64} {s s' : Heap} (hcount : count.toNat ≤ 32768)
    (hpos : 0 < s.allocatorMappedVa.toNat) (hgap : s.allocatorMappedVa.toNat % 2 ^ 24 = 0)
    (hfit : s.allocatorMappedVa.toNat + poolBytes objectSize count ≤ KERNEL_STACK_PROCS.toNat)
    (hsmall : poolBytes objectSize count < 2 ^ 60)
    (h : allocatorInit objectSize count s = some (alloc, s')) :
    Held alloc s'.byte (List.range count.toNat).reverse [] ∧ alloc.poolBase = s.allocatorMappedVa ∧
      Differ alloc.poolBase.toNat alloc.poolEnd.toNat s.byte s'.byte ∧
      alloc.poolBase.toNat ≤ alloc.poolEnd.toNat ∧
        alloc.poolEnd.toNat ≤ s'.allocatorMappedVa.toNat ∧
      s'.allocatorMappedVa.toNat ≤ KERNEL_STACK_PROCS.toNat ∧
        s'.allocatorMappedVa.toNat % 2 ^ 24 = 0 := by
  obtain ⟨htotal, haligned⟩ := toNat_totalSize hsmall
  have hprocs : KERNEL_STACK_PROCS.toNat = 18446744065119617024 := rfl
  have hassert : decide (count ≤ PGSIZE * 8) = true := decide_eq_true (BitVec.le_def.2 hcount)
  rw [allocatorInit, hassert, heapAssert_true, pure_bind, Partial.get_bind, set_bind] at h
  set totalSize := PGROUNDUP (ROUNDUP_2N (objectSize + headerSize) 8 * count) with htotalSize
  set alloc₀ : Allocator := {
    freelist := 0, objectSize, objectSizeAligned := ROUNDUP_2N (objectSize + headerSize) 8,
      maxCount := count
    poolBase := s.allocatorMappedVa, poolEnd := s.allocatorMappedVa + totalSize
    availableCount := count, allocatedCount := 0 } with halloc₀
  obtain ⟨_, s₂, hmap, h⟩ := bind_eq_some.1 h
  obtain ⟨fl, s₃, hthread, h⟩ := bind_eq_some.1 h
  obtain ⟨rfl, rfl⟩ := pure_eq_some.1 h
  have hend : alloc₀.poolEnd.toNat = s.allocatorMappedVa.toNat + poolBytes objectSize count := by
    rw [halloc₀, BitVec.toNat_add, htotal]
    omega
  have hpage : poolBytes objectSize count % 4096 = 0 := by
    rw [poolBytes]
    omega
  have hlaid : Laid alloc₀ := by
    refine ⟨hpos, show s.allocatorMappedVa.toNat % 8 = 0 by omega, ?_, ?_, ?_⟩
    · show (ROUNDUP_2N (objectSize + headerSize) 8).toNat % 8 = 0
      rw [ROUNDUP_2N, toNat_and_mask (k := 3) (by decide)]
      omega
    · show count.toNat = 0 ∨ objectSize.toNat + 8 ≤ (ROUNDUP_2N (objectSize + headerSize) 8).toNat
      omega
    · show s.allocatorMappedVa.toNat + count.toNat *
        (ROUNDUP_2N (objectSize + headerSize) 8).toNat ≤ alloc₀.poolEnd.toNat
      rw [hend]
      rcases haligned with hzero | hsize
      · rw [hzero]
        omega
      · rw [hsize, Nat.mul_comm, poolBytes]
        omega
  obtain ⟨hmapped, hva⟩ :=
    mapPool_run (by rw [htotal, hend]; show s.allocatorMappedVa.toNat + _ = _; omega) hmap
  have hheader : alloc₀.header 0 = alloc₀.poolBase := by
    rw [Allocator.header, Nat.zero_mul]
    exact BitVec.add_zero _
  obtain ⟨m', fl', hrun, hpath, hthreaded⟩ :=
    @threadPool_run alloc₀ hlaid count.toNat 0 s₂ 0 (Nat.zero_add _) rfl
  rw [hheader, hthread] at hrun
  obtain ⟨rfl, rfl⟩ : fl = fl' ∧ s' = { s₂ with byte := m' } := by simpa using hrun
  have hround : (ROUNDUP_2N totalSize KERNEL_ALLOCATOR_GAP).toNat
      = (poolBytes objectSize count + 2 ^ 24 - 1) / 2 ^ 24 * 2 ^ 24 := by
    rw [toNat_ROUNDUP_2N (k := 24) rfl (by decide) (by omega), htotal]
  have hnext : s₂.allocatorMappedVa.toNat = s.allocatorMappedVa.toNat +
      (poolBytes objectSize count + 2 ^ 24 - 1) / 2 ^ 24 * 2 ^ 24 := by
    rw [hva, BitVec.toNat_add, hround]
    omega
  have hpool : SamePool alloc₀ { alloc₀ with freelist := fl } := ⟨rfl, rfl, rfl, rfl, rfl⟩
  refine ⟨⟨hpool.laid hlaid, hcount, ?_, ?_, ?_, rfl⟩, rfl, hmapped.trans hthreaded, ?_,
    ?_, ?_, ?_⟩
  · rw [List.append_nil]
    exact List.reverse_perm _
  · rw [hpool.header]
    exact hpath
  · rw [List.length_reverse, List.length_range]
  · show s.allocatorMappedVa.toNat ≤ alloc₀.poolEnd.toNat
    omega
  · show alloc₀.poolEnd.toNat ≤ s₂.allocatorMappedVa.toNat
    omega
  · show s₂.allocatorMappedVa.toNat ≤ _
    omega
  · show s₂.allocatorMappedVa.toNat % _ = 0
    omega

end Held

/-! ## The allocators of the memory model

`Vm` keeps, for each allocator, the list of its free objects.  That list is the one
threaded through the pool.
-/

section Refinement

variable {alloc : Allocator} {free live : List Nat} {k : Nat} {s : Heap} {vm : Vm}
  {get : Vm → List Uint64}
  {put : Vm → List Uint64 → Vm}

/-- `kalloc` takes the first object of the list, and panics exactly if there is none. -/
theorem Held.kalloc_refines (h : Held alloc s.byte free live)
    (hget : get vm = free.map alloc.object) :
    (alloc.kalloc s = none ∧ SignalOS.kalloc get put vm = none) ∨
      ∃ obj alloc' rest live' m', alloc.kalloc s = some ((obj, alloc'), { s with byte := m' }) ∧
        Held alloc' m' rest live' ∧ SignalOS.kalloc get put vm = some (obj,
          put vm (rest.map alloc'.object)) := by
  cases free with
  | nil =>
    refine .inl ⟨h.kalloc_none.1, ?_⟩
    rw [SignalOS.kalloc, hget]
    rfl
  | cons k rest =>
    obtain ⟨m', alloc', hrun, hpool, hheld, -⟩ := h.kalloc s
    refine .inr ⟨_, alloc', rest, _, m', hrun, hheld, ?_⟩
    rw [SignalOS.kalloc, hget, hpool.object]
    rfl

/-- `kfree` puts an object that was in use in front of the list. -/
theorem Held.kfree_refines (h : Held alloc s.byte free live)
    (hget : get vm = free.map alloc.object) (hk : k ∈ live)
    (hin : alloc.object k < alloc.poolEnd) :
    ∃ alloc' m', alloc.kfree (alloc.object k) s = some (alloc', { s with byte := m' }) ∧
      Held alloc' m' (k :: free) (live.erase k) ∧
      SignalOS.kfree get put (alloc.object k) vm = some ((),
        put vm ((k :: free).map alloc'.object)) := by
  obtain ⟨m', alloc', hrun, hpool, hheld, -⟩ := h.kfree s hk hin
  refine ⟨alloc', m', hrun, hheld, ?_⟩
  rw [SignalOS.kfree, if_neg (h.laid.object_ne_zero (h.lt_of_live hk)), hget, hpool.object,
    List.map_cons]

end Refinement

/-! ## All allocators -/

/-- The object allocators and their users. -/
structure Pools where
  heap : Heap
  /-- Every allocator, with the objects its users hold. -/
  pools : List (Allocator × List Uint64)

/-- What happens to them. -/
inductive PoolOp where
  | init (objectSize count : Uint64)
  | kalloc (i : Nat)
  | kfree (i : Nat) (obj : Uint64)
  /-- A user stores `data` at an offset into an object, given by its address and size. -/
  | write (x : Uint64 × Nat) (off : Nat) (data : List Byte)

namespace Pools

/-- The objects in use, with their sizes. -/
def objects (s : Pools) : List (Uint64 × Nat) :=
  s.pools.flatMap fun p => p.2.map fun obj => (obj, p.1.objectSize.toNat)

/-- The objects of an allocator that are in use. -/
def held (s : Pools) (i : Nat) : List Uint64 := (s.pools[i]?.map Prod.snd).getD []

/-- One operation; none if it panics. -/
def step (s : Pools) : PoolOp → Option Pools
  | .init objectSize count =>
    (allocatorInit objectSize count s.heap).map fun r =>
      { heap := r.2, pools := s.pools ++ [(r.1, [])] }
  | .kalloc i => s.pools[i]?.bind fun p =>
    (p.1.kalloc s.heap).map fun r => { heap := r.2, pools := s.pools.set i (r.1.2, r.1.1 :: p.2) }
  | .kfree i obj => s.pools[i]?.bind fun p =>
    (p.1.kfree obj s.heap).map fun r =>
      { heap := r.2, pools := s.pools.set i (r.1, p.2.erase obj) }
  | .write x off data =>
    some { s with heap := { s.heap with
      byte := memmove s.heap.byte (x.1 + BitVec.ofNat 64 off) data } }

/-- What the users promise: pools fit in front of the kernel stacks, and only objects in
use are given back and written to. -/
def Ok (s : Pools) : PoolOp → Prop
  | .init objectSize count => count ≤ PGSIZE * 8 ∧
    s.heap.allocatorMappedVa.toNat + poolBytes objectSize count ≤ KERNEL_STACK_PROCS.toNat
  | .kalloc _ => True
  | .kfree i obj => obj ∈ s.held i
  | .write x off data => x ∈ s.objects ∧ off + data.length ≤ x.2

/-- Before the first `allocator_init`. -/
def boot (byte : Uint64 → Byte) (freepages : Nat) : Pools where
  heap := { byte, allocatorMappedVa := KERNEL_ALLOCATOR_BASE, freepages }
  pools := []

/-- Where the pools are. -/
def spans (s : Pools) : List (Nat × Nat) :=
  s.pools.map fun p => (p.1.poolBase.toNat, p.1.poolEnd.toNat)

/-- The invariant of all allocators. -/
structure Inv (s : Pools) : Prop where
  held : ∀ p ∈ s.pools, ∃ free live, Held p.1 s.heap.byte free live ∧
    p.2.Perm (live.map p.1.object)
  order : s.spans.Pairwise fun x y => x.2 ≤ y.1
  bounds : ∀ x ∈ s.spans, KERNEL_ALLOCATOR_BASE.toNat ≤ x.1 ∧ x.1 ≤ x.2 ∧
    x.2 ≤ s.heap.allocatorMappedVa.toNat
  base : KERNEL_ALLOCATOR_BASE.toNat ≤ s.heap.allocatorMappedVa.toNat
  stop : s.heap.allocatorMappedVa.toNat ≤ KERNEL_STACK_PROCS.toNat
  gap : s.heap.allocatorMappedVa.toNat % 2 ^ 24 = 0

variable {s t : Pools} {p q p' : Allocator × List Uint64} {i j : Nat}

/-- Two pools are apart. -/
theorem Inv.apart (h : Inv s) (hp : s.pools[i]? = some p) (hq : s.pools[j]? = some q)
    (hne : i ≠ j) :
    p.1.poolEnd.toNat ≤ q.1.poolBase.toNat ∨ q.1.poolEnd.toNat ≤ p.1.poolBase.toNat := by
  have hlt {i j : Nat} {p q : Allocator × List Uint64} (hp : s.pools[i]? = some p)
    (hq : s.pools[j]? = some q)
      (hij : i < j) : p.1.poolEnd.toNat ≤ q.1.poolBase.toNat := by
    obtain ⟨hi, hpi⟩ := List.getElem?_eq_some_iff.1 hp
    obtain ⟨hj, hqj⟩ := List.getElem?_eq_some_iff.1 hq
    have :=
      List.pairwise_iff_getElem.1 h.order i j (by simpa [spans] using hi)
        (by simpa [spans] using hj) hij
    simpa [spans, hpi, hqj] using this
  rcases Nat.lt_or_gt_of_ne hne with hij | hij
  · exact .inl (hlt hp hq hij)
  · exact .inr (hlt hq hp hij)

/-- Replacing one allocator by another one with the same pool. -/
theorem Inv.set (h : Inv s) {m' : Uint64 → Byte} {free live : List Nat} {lo hi : Nat}
    (hp : s.pools[i]? = some p)
    (hpool : SamePool p.1 p'.1) (hheld : Held p'.1 m' free live)
    (hperm : p'.2.Perm (live.map p'.1.object))
    (hm : Differ lo hi s.heap.byte m') (hlo : p.1.poolBase.toNat ≤ lo)
    (hhi : hi ≤ p.1.poolEnd.toNat) :
    Inv { heap := { s.heap with byte := m' }, pools := s.pools.set i p' } := by
  have hspans : spans { heap := { s.heap with byte := m' }, pools := s.pools.set i p' } =
      s.spans := by
    obtain ⟨hi, hpi⟩ := List.getElem?_eq_some_iff.1 hp
    have hlt : i < s.spans.length := by simpa [spans] using hi
    have hsame : (p'.1.poolBase.toNat, p'.1.poolEnd.toNat) = s.spans[i] := by
      rw [hpool.base, hpool.stop]
      simp [spans, hpi]
    rw [spans, List.map_set, hsame, ← spans, List.set_getElem_self]
  refine ⟨fun q hq => ?_, hspans ▸ h.order, hspans ▸ h.bounds, h.base, h.stop, h.gap⟩
  obtain ⟨j, hj⟩ := List.mem_iff_getElem?.1 hq
  rw [List.getElem?_set] at hj
  split at hj
  · split at hj
    · obtain rfl : p' = q := Option.some.inj hj
      exact ⟨free, live, hheld, hperm⟩
    · cases hj
  · next hne =>
    obtain ⟨free', live', hheld', hperm'⟩ := h.held q (List.mem_of_getElem? hj)
    have hapart := h.apart hp hj hne
    exact ⟨free', live', hheld'.frame_pool hm (by omega), hperm'⟩

/-- Where an object in use is. -/
theorem Inv.locate (h : Inv s) {x : Uint64 × Nat} (hx : x ∈ s.objects) :
    ∃ (i : Nat) (p : Allocator × List Uint64) (free live : List Nat) (k : Nat),
      s.pools[i]? = some p ∧
      Held p.1 s.heap.byte free live ∧ p.2.Perm (live.map p.1.object) ∧ k ∈ live ∧
      x = (p.1.object k, p.1.objectSize.toNat) := by
  obtain ⟨p, hp, hobj⟩ := List.mem_flatMap.1 hx
  obtain ⟨obj, hmem, rfl⟩ := List.mem_map.1 hobj
  obtain ⟨free, live, hheld, hperm⟩ := h.held p hp
  obtain ⟨k, hk, rfl⟩ := List.mem_map.1 (hperm.subset hmem)
  obtain ⟨i, hi⟩ := List.mem_iff_getElem?.1 hp
  exact ⟨i, p, free, live, k, hi, hheld, hperm, hk, rfl⟩

/-- Storing to an object changes nothing but the bytes of the object. -/
theorem differ_write {alloc : Allocator} (hl : Laid alloc) {k off : Nat}
    (hk : k < alloc.maxCount.toNat)
    {data : List Byte} (hoff : off + data.length ≤ alloc.objectSize.toNat) (m : Uint64 → Byte) :
    Differ (alloc.object k).toNat ((alloc.object k).toNat + alloc.objectSize.toNat) m
      (memmove m (alloc.object k + BitVec.ofNat 64 off) data) := by
  have hobj := hl.toNat_object hk
  have hle := hl.header_le hk
  have hend : alloc.poolEnd.toNat < 2 ^ 64 := alloc.poolEnd.isLt
  have hto : (alloc.object k + BitVec.ofNat 64 off).toNat = (alloc.object k).toNat + off := by
    rw [BitVec.toNat_add, BitVec.toNat_ofNat]
    omega
  exact (@Differ.memmove m (alloc.object k + BitVec.ofNat 64 off) data (by omega)).mono (by omega)
    (by omega)

theorem Inv.init {objectSize count : Uint64} (h : Inv s) (hok : s.Ok (.init objectSize count))
    (hstep : s.step (.init objectSize count) = some t) : Inv t := by
  obtain ⟨⟨alloc, heap⟩, hrun, rfl⟩ := Option.map_eq_some_iff.1 hstep
  have hbase : KERNEL_ALLOCATOR_BASE.toNat = 18446744060824649728 := rfl
  have hprocs : KERNEL_STACK_PROCS.toNat = 18446744065119617024 := rfl
  have hlow := h.base
  obtain ⟨hheld, hstart, hdiffer, hspan, hend, hstop, hgap⟩ :=
    Held.init (BitVec.le_def.1 hok.1) (by omega) h.gap hok.2 (by have := hok.2; omega) hrun
  have hspans : spans { heap := heap, pools := s.pools ++ [(alloc, [])] }
      = s.spans ++ [(alloc.poolBase.toNat, alloc.poolEnd.toNat)] := by
    simp [spans]
  have hbelow : ∀ x ∈ s.spans, x.2 ≤ alloc.poolBase.toNat :=
    fun x hx => hstart ▸ (h.bounds x hx).2.2
  refine ⟨fun p hp => ?_, ?_, ?_, ?_, hstop, hgap⟩
  · rcases List.mem_append.1 hp with hp | hp
    · obtain ⟨free, live, hheld', hperm⟩ := h.held p hp
      have := hbelow _ (List.mem_map_of_mem hp)
      exact ⟨free, live, hheld'.frame_pool hdiffer (.inl this), hperm⟩
    · obtain rfl := List.mem_singleton.1 hp
      exact ⟨_, [], hheld, .nil⟩
  · rw [hspans, List.pairwise_append]
    refine ⟨h.order, List.pairwise_singleton _ _, fun x hx y hy => ?_⟩
    obtain rfl := List.mem_singleton.1 hy
    exact hbelow x hx
  · rw [hspans]
    intro x hx
    rcases List.mem_append.1 hx with hx | hx
    · obtain ⟨hlo, hspan', hhi⟩ := h.bounds x hx
      have := hbelow x hx
      exact ⟨hlo, hspan', by show x.2 ≤ heap.allocatorMappedVa.toNat; omega⟩
    · obtain rfl := List.mem_singleton.1 hx
      exact ⟨hstart ▸ h.base, hspan, hend⟩
  · show _ ≤ heap.allocatorMappedVa.toNat
    rw [← hstart] at hlow
    omega

theorem Inv.kalloc (h : Inv s) (hstep : s.step (.kalloc i) = some t) : Inv t := by
  obtain ⟨p, hp, hrun⟩ := Option.bind_eq_some_iff.1 hstep
  obtain ⟨r, hr, rfl⟩ := Option.map_eq_some_iff.1 hrun
  obtain ⟨free, live, hheld, hperm⟩ := h.held p (List.mem_of_getElem? hp)
  cases free with
  | nil =>
    rw [hheld.kalloc_none.1] at hr
    cases hr
  | cons k rest =>
    have hk := hheld.lt_of_free List.mem_cons_self
    obtain ⟨m', alloc', hr', hpool, hheld', hdiffer⟩ := hheld.kalloc s.heap
    obtain rfl := Option.some.inj (hr.symm.trans hr')
    refine h.set hp hpool hheld' ?_ hdiffer (hheld.laid.base_le hk) (hheld.laid.header_le hk)
    rw [List.map_cons, hpool.object]
    exact hperm.cons _

theorem Inv.kfree {obj : Uint64} (h : Inv s) (hok : s.Ok (.kfree i obj))
    (hstep : s.step (.kfree i obj) = some t) :
    Inv t := by
  obtain ⟨p, hp, hrun⟩ := Option.bind_eq_some_iff.1 hstep
  obtain ⟨⟨alloc'', heap⟩, hr, rfl⟩ := Option.map_eq_some_iff.1 hrun
  obtain ⟨free, live, hheld, hperm⟩ := h.held p (List.mem_of_getElem? hp)
  have hmem : obj ∈ p.2 := by simpa [Ok, Pools.held, hp] using hok
  obtain ⟨k, hk, rfl⟩ := List.mem_map.1 (hperm.subset hmem)
  have hlt := hheld.lt_of_live hk
  have hne : p.1.object k ≠ 0 := hheld.laid.object_ne_zero hlt
  obtain ⟨m', alloc', hr', hpool, hheld', hdiffer⟩ :=
    hheld.kfree s.heap hk (p.1.kfree_inside hne hr)
  obtain ⟨rfl, rfl⟩ := Prod.mk.inj (Option.some.inj (hr.symm.trans hr'))
  refine h.set hp hpool hheld' ?_ hdiffer (hheld.laid.base_le hlt) (hheld.laid.header_le hlt)
  rw [hpool.object]
  have hsplit : (live.map p.1.object).Perm (p.1.object k :: (live.erase k).map p.1.object) := by
    rw [← List.map_cons]
    exact (List.perm_cons_erase hk).map _
  exact (List.perm_cons_erase hmem).symm.trans (hperm.trans hsplit) |>.cons_inv

theorem Inv.write {x : Uint64 × Nat} {off : Nat} {data : List Byte} (h : Inv s)
    (hok : s.Ok (.write x off data))
    (hstep : s.step (.write x off data) = some t) : Inv t := by
  obtain ⟨i, p, free, live, k, hp, hheld, hperm, hk, rfl⟩ := h.locate hok.1
  obtain rfl := Option.some.inj hstep
  have hlt := hheld.lt_of_live hk
  have hobj := hheld.laid.toNat_object hlt
  have hdiffer : Differ (p.1.header k).toNat ((p.1.header k).toNat + 8 + p.1.objectSize.toNat)
    s.heap.byte
      (memmove s.heap.byte (p.1.object k + BitVec.ofNat 64 off) data) :=
    (differ_write hheld.laid hlt hok.2 s.heap.byte).mono (by omega) (by omega)
  have hpool : SamePool p.1 p.1 := ⟨rfl, rfl, rfl, rfl, rfl⟩
  have hset := h.set hp hpool (hheld.frame_live hk hdiffer le_rfl le_rfl) hperm hdiffer
    (hheld.laid.base_le hlt) (hheld.laid.header_le hlt)
  have hself : s.pools.set i p = s.pools := by
    obtain ⟨hi, hpi⟩ := List.getElem?_eq_some_iff.1 hp
    rw [← hpi, List.set_getElem_self]
  rwa [hself] at hset

/-- **Every operation keeps the invariant.** -/
theorem Inv.step {op : PoolOp} (h : Inv s) (hok : s.Ok op) (hstep : s.step op = some t) :
    Inv t := by
  cases op with
  | init objectSize count => exact h.init hok hstep
  | kalloc i => exact h.kalloc hstep
  | kfree i obj => exact h.kfree hok hstep
  | write x off data => exact h.write hok hstep

theorem Inv.boot (byte : Uint64 → Byte) (freepages : Nat) : Inv (boot byte freepages) where
  held _ hp := absurd hp (by simp [Pools.boot])
  order := .nil
  bounds _ hx := absurd hx (by simp [Pools.boot, spans])
  base := le_rfl
  stop := show KERNEL_ALLOCATOR_BASE.toNat ≤ KERNEL_STACK_PROCS.toNat by decide
  gap := show KERNEL_ALLOCATOR_BASE.toNat % 2 ^ 24 = 0 by decide

/-- What the users of the allocators rely on. -/
structure Sound (s : Pools) : Prop where
  /-- An object in use lies in the pool of its allocator, at a multiple of eight. -/
  inside : ∀ p ∈ s.pools, ∀ obj ∈ p.2, obj.toNat % 8 = 0 ∧
    p.1.poolBase.toNat ≤ obj.toNat ∧ obj.toNat + p.1.objectSize.toNat ≤ p.1.poolEnd.toNat
  /-- Two objects in use are apart, with room for a header between them. -/
  objects : s.objects.Pairwise fun x y => x.1.toNat + x.2 + 8 ≤ y.1.toNat ∨
    y.1.toNat + y.2 + 8 ≤ x.1.toNat
  /-- Pools are apart and in the area kept for them. -/
  pools : s.spans.Pairwise fun x y => x.2 ≤ y.1
  area : ∀ x ∈ s.spans, KERNEL_ALLOCATOR_BASE.toNat ≤ x.1 ∧ x.1 ≤ x.2 ∧
    x.2 ≤ KERNEL_STACK_PROCS.toNat
  /-- A free list is as long as its counter says, misses every object in use, and stays
  as it is when an object in use is overwritten. -/
  freelists : ∀ p ∈ s.pools, ∃ free : List Uint64, Path (loadWord s.heap.byte) p.1.freelist free
    0 ∧ 0 ∉ free ∧
    free.length = p.1.availableCount.toNat ∧
    (∀ l ∈ free, ∀ x ∈ s.objects, l.toNat + 8 ≤ x.1.toNat ∨ x.1.toNat + x.2 ≤ l.toNat) ∧
    ∀ x ∈ s.objects, ∀ off (data : List Byte), off + data.length ≤ x.2 →
      Path (loadWord (memmove s.heap.byte (x.1 + BitVec.ofNat 64 off) data)) p.1.freelist free 0
  counts : ∀ p ∈ s.pools, p.1.allocatedCount.toNat = p.2.length ∧
    p.1.allocatedCount.toNat + p.1.availableCount.toNat = p.1.maxCount.toNat
  /-- `kalloc` panics only when all objects are in use. -/
  panics : ∀ p ∈ s.pools, p.1.kalloc s.heap = none → p.2.length = p.1.maxCount.toNat

/-- Objects of one allocator are apart. -/
theorem pairwise_held {alloc : Allocator} {m : Uint64 → Byte} {free live : List Nat}
    {objs : List Uint64}
    (h : Held alloc m free live) (hperm : objs.Perm (live.map alloc.object)) :
    (objs.map fun obj => (obj, alloc.objectSize.toNat)).Pairwise
      fun x y => x.1.toNat + x.2 + 8 ≤ y.1.toNat ∨ y.1.toNat + y.2 + 8 ≤ x.1.toNat := by
  rw [List.pairwise_map, hperm.pairwise_iff Or.symm, List.pairwise_map]
  refine (List.nodup_append.1 h.nodup).2.1.imp_of_mem fun hj hk hne => ?_
  rw [h.laid.toNat_object (h.lt_of_live hj), h.laid.toNat_object (h.lt_of_live hk)]
  have := h.laid.apart (h.lt_of_live hj) (h.lt_of_live hk) hne
  omega

/-- A header on a free list and an object in use are apart. -/
theorem Inv.header_apart (h : Inv s) {free live : List Nat} {k : Nat} (hp : s.pools[i]? = some p)
    (hheld : Held p.1 s.heap.byte free live) (hperm : p.2.Perm (live.map p.1.object))
    (hk : k ∈ free)
    {x : Uint64 × Nat} (hx : x ∈ s.objects) :
    (p.1.header k).toNat + 8 ≤ x.1.toNat ∨ x.1.toNat + x.2 ≤ (p.1.header k).toNat := by
  obtain ⟨q, hq, hobj⟩ := List.mem_flatMap.1 hx
  obtain ⟨obj, hmem, rfl⟩ := List.mem_map.1 hobj
  obtain ⟨j, hj⟩ := List.mem_iff_getElem?.1 hq
  have hkl := hheld.lt_of_free hk
  by_cases hij : i = j
  · obtain rfl := hij
    obtain rfl := Option.some.inj (hp.symm.trans hj)
    obtain ⟨l, hl, rfl⟩ := List.mem_map.1 (hperm.subset hmem)
    have hapart := hheld.laid.apart hkl (hheld.lt_of_live hl) (hheld.ne hk hl)
    have hobj := hheld.laid.toNat_object (hheld.lt_of_live hl)
    show _ ≤ (p.1.object l).toNat ∨ (p.1.object l).toNat + p.1.objectSize.toNat ≤ _
    omega
  · obtain ⟨free', live', hheld', hperm'⟩ := h.held q hq
    obtain ⟨l, hl, rfl⟩ := List.mem_map.1 (hperm'.subset hmem)
    have hapart := h.apart hp hj hij
    have hkb := hheld.laid.base_le hkl
    have hke := hheld.laid.header_le hkl
    have hlb := hheld'.laid.base_le (hheld'.lt_of_live hl)
    have hle := hheld'.laid.header_le (hheld'.lt_of_live hl)
    have hobj := hheld'.laid.toNat_object (hheld'.lt_of_live hl)
    show _ ≤ (q.1.object l).toNat ∨ (q.1.object l).toNat + q.1.objectSize.toNat ≤ _
    omega

/-- Objects of two allocators are apart. -/
theorem Inv.pairwise_objects (h : Inv s) : s.objects.Pairwise
    fun x y => x.1.toNat + x.2 + 8 ≤ y.1.toNat ∨ y.1.toNat + y.2 + 8 ≤ x.1.toNat := by
  rw [objects, List.pairwise_flatMap]
  refine ⟨fun p hp => ?_, ?_⟩
  · obtain ⟨free, live, hheld, hperm⟩ := h.held p hp
    exact pairwise_held hheld hperm
  · refine (List.pairwise_map.1 h.order).imp_of_mem fun {p q} hp hq hpq x hx y hy => ?_
    obtain ⟨_, hobj, rfl⟩ := List.mem_map.1 hx
    obtain ⟨_, hobj', rfl⟩ := List.mem_map.1 hy
    obtain ⟨free, live, hheld, hperm⟩ := h.held p hp
    obtain ⟨free', live', hheld', hperm'⟩ := h.held q hq
    obtain ⟨k, hk, rfl⟩ := List.mem_map.1 (hperm.subset hobj)
    obtain ⟨l, hl, rfl⟩ := List.mem_map.1 (hperm'.subset hobj')
    have hke := hheld.laid.header_le (hheld.lt_of_live hk)
    have hko := hheld.laid.toNat_object (hheld.lt_of_live hk)
    have hlb := hheld'.laid.base_le (hheld'.lt_of_live hl)
    have hlo := hheld'.laid.toNat_object (hheld'.lt_of_live hl)
    show (p.1.object k).toNat + p.1.objectSize.toNat + 8 ≤ (q.1.object l).toNat ∨ _
    omega

/-- The invariant gives the users all they rely on. -/
theorem Inv.sound (h : Inv s) : s.Sound where
  inside p hp obj hobj := by
    obtain ⟨free, live, hheld, hperm⟩ := h.held p hp
    obtain ⟨k, hk, rfl⟩ := List.mem_map.1 (hperm.subset hobj)
    have hlt := hheld.lt_of_live hk
    have hmod := hheld.laid.header_mod hlt
    have hbase := hheld.laid.base_le hlt
    have hle := hheld.laid.header_le hlt
    rw [hheld.laid.toNat_object hlt]
    omega
  objects := h.pairwise_objects
  pools := h.order
  area x hx := by
    obtain ⟨hlo, hspan, hhi⟩ := h.bounds x hx
    exact ⟨hlo, hspan, hhi.trans h.stop⟩
  freelists p hp := by
    obtain ⟨free, live, hheld, hperm⟩ := h.held p hp
    obtain ⟨i, hi⟩ := List.mem_iff_getElem?.1 hp
    refine ⟨free.map p.1.header, hheld.chain, ?_, by rw [List.length_map, hheld.available], ?_, ?_⟩
    · intro hzero
      obtain ⟨k, hk, heq⟩ := List.mem_map.1 hzero
      exact hheld.laid.header_ne_zero (hheld.lt_of_free hk) heq
    · intro l hl x hx
      obtain ⟨k, hk, rfl⟩ := List.mem_map.1 hl
      exact h.header_apart hi hheld hperm hk hx
    · intro x hx off data hoff
      have hmiss (k : Nat) (hk : k ∈ free) := h.header_apart hi hheld hperm hk hx
      refine hheld.chain_frame ?_ (fun _ hk => hk) hmiss hheld.chain
      obtain ⟨j, q, free', live', l, hq, hheld', hperm', hl, rfl⟩ := h.locate hx
      exact differ_write hheld'.laid (hheld'.lt_of_live hl) hoff s.heap.byte
  counts p hp := by
    obtain ⟨free, live, hheld, hperm⟩ := h.held p hp
    have hlength := hheld.length
    have hobjs := hperm.length_eq
    rw [List.length_map] at hobjs
    rw [hheld.allocated, hheld.available, hobjs]
    exact ⟨rfl, by omega⟩
  panics p hp hnone := by
    obtain ⟨free, live, hheld, hperm⟩ := h.held p hp
    cases free with
    | nil => rw [hperm.length_eq, List.length_map, (hheld.kalloc_none (s := s.heap)).2]
    | cons k rest =>
      obtain ⟨m', alloc', hrun, -⟩ := hheld.kalloc s.heap
      rw [hnone] at hrun
      cases hrun

instance Ok.decidable (s : Pools) : ∀ op, Decidable (s.Ok op)
  | .init _ _ => inferInstanceAs (Decidable (_ ∧ _))
  | .kalloc _ => inferInstanceAs (Decidable True)
  | .kfree _ _ => inferInstanceAs (Decidable (_ ∈ _))
  | .write _ _ _ => inferInstanceAs (Decidable (_ ∧ _))

/-- **Objects, headers and pools stay apart** in every run whose users keep their
promises. -/
theorem objects_apart (byte : Uint64 → Byte) (freepages : Nat) (ops : List PoolOp) (s : Pools)
    (hrun : Runs.run Pools.step (boot byte freepages) ops = some s)
    (hok : Runs.Along Pools.step Pools.Ok (boot byte freepages) ops) : s.Sound :=
  (Runs.run_induct (fun _ _ _ hi hok hstep => hi.step hok hstep) (Inv.boot byte freepages) hrun
    hok).sound

/-- Two allocators, the second one of objects without a byte; objects are taken from
both, one is overwritten and one goes back. -/
def twoPools : List PoolOp :=
  [.init 24 2, .init 0 3, .kalloc 0, .kalloc 0, .kalloc 1, .write (0xfffffffd00000008, 24) 0
    (List.replicate 24 1),
    .kfree 0 0xfffffffd00000028, .kalloc 1]

theorem objects_apart_twoPools :
    ∃ s, Runs.run Pools.step (boot (fun _ => 0) 2) twoPools = some s ∧ s.Sound := by
  have hsome : (Runs.run Pools.step (boot (fun _ => 0) 2) twoPools).isSome = true := by
    decide +kernel
  have hok : Runs.Along Pools.step Pools.Ok (boot (fun _ => 0) 2) twoPools := by decide +kernel
  obtain ⟨s, hs⟩ := Option.isSome_iff_exists.1 hsome
  exact ⟨s, hs, objects_apart (fun _ => 0) 2 twoPools s hs hok⟩

end Pools

end SignalOS
