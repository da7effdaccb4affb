import Mathlib.Logic.Function.Basic
import SignalOS.Machine.Riscv

/-!
# Physical memory and its allocators

The memory the kernel works on: page-table pages, the bytes of all other pages,
the free list of `kalloc.c` and the pools of its object allocators.

Page-table pages and byte pages are kept apart: the kernel reads entries only
from pages it took as page tables and stores bytes only to pages it took for
something else.  Kernel pointers into the direct mapping are written as the
physical addresses they map to.  Spinlocks have no place in this sequential
model, and a panic is the absence of a result.

* `Vm` — the memory state; `VmM` — computations on it that may panic.
* `memset`, `memmove` — `string.c` on the byte store.
* `kallocpage`, `kfreepage`, `kalloc`, `kfree` — `kalloc.c`.
-/

namespace SignalOS

/-- The memory the kernel works on. -/
structure Vm where
  /-- Page-table pages, by physical address, and in them the entry at an index. -/
  pte : Uint64 → Uint64 → Uint64
  /-- The bytes of all other pages, by physical address. -/
  byte : Uint64 → Byte
  /-- `kmem.freelist`: the physical addresses of the free pages, the next one first. -/
  freelist : List Uint64
  /-- `kpage_allocator_base`, a direct-mapping address. -/
  kpageAllocatorBase : Uint64
  kpageAllocatorSize : Uint64
  /-- The free objects of `mm_allocator`, `vma_allocator` and `kstrbuf`. -/
  mmAllocator : List Uint64
  vmaAllocator : List Uint64
  kstrbuf : List Uint64
  /-- `KIVA_TO_PA(trampoline)`, a linker symbol. -/
  trampoline : Uint64

/-- A computation on memory; `none` is a panic. -/
abbrev VmM := StateT Vm Option

/-- `panic(...)` and a failed `assert`. -/
def kpanic {α : Type} : VmM α := fun _ => none

/-- `assert(x)`. -/
def kassert (x : Bool) : VmM Unit := if x then pure () else kpanic

/-! ## Bytes -/

/-- `memset(pa, c, n)`. -/
def memset (m : Uint64 → Byte) (pa : Uint64) (c : Byte) (n : Uint64) : Uint64 → Byte :=
  fun a => if a - pa < n then c else m a

/-- `memmove(pa, src, len)`, with `src` the bytes of the source buffer. -/
def memmove (m : Uint64 → Byte) (pa : Uint64) (src : List Byte) : Uint64 → Byte :=
  fun a => if (a - pa).toNat < src.length then src.getD (a - pa).toNat 0 else m a

/-- Memory after `memmove(pa, src, len)`. -/
def Vm.store (vm : Vm) (pa : Uint64) (src : List Byte) : Vm :=
  { vm with byte := memmove vm.byte pa src }

@[simp] theorem Vm.store_pte (vm : Vm) (pa : Uint64) (src : List Byte) :
    (vm.store pa src).pte = vm.pte := rfl

@[simp] theorem Vm.store_byte (vm : Vm) (pa : Uint64) (src : List Byte) :
    (vm.store pa src).byte = memmove vm.byte pa src := rfl

/-- The `n` bytes at `pa`. -/
def readBytes (m : Uint64 → Byte) (pa : Uint64) (n : Nat) : List Byte :=
  (List.range n).map fun i => m (pa + BitVec.ofNat 64 i)

@[simp] theorem length_readBytes (m : Uint64 → Byte) (pa : Uint64) (n : Nat) :
    (readBytes m pa n).length = n := by
  simp [readBytes]

theorem getElem_readBytes {m : Uint64 → Byte} {pa : Uint64} {n i : Nat}
    (h : i < (readBytes m pa n).length) :
    (readBytes m pa n)[i] = m (pa + BitVec.ofNat 64 i) := by
  simp [readBytes]

theorem memmove_offset {m : Uint64 → Byte} {pa : Uint64} {src : List Byte} {i : Nat}
    (hi : i < src.length) (hlt : i < 2 ^ 64) :
    memmove m pa src (pa + BitVec.ofNat 64 i) = src[i] := by
  have hsub : pa + BitVec.ofNat 64 i - pa = BitVec.ofNat 64 i := by
    rw [BitVec.add_comm, BitVec.add_sub_cancel]
  have hnat : (BitVec.ofNat 64 i).toNat = i := by
    rw [BitVec.toNat_ofNat, Nat.mod_eq_of_lt hlt]
  simp only [memmove, hsub, hnat, if_pos hi]
  exact List.getElem_eq_getD 0 |>.symm

theorem memmove_of_le {m : Uint64 → Byte} {pa a : Uint64} {src : List Byte}
    (h : src.length ≤ (a - pa).toNat) : memmove m pa src a = m a :=
  if_neg (Nat.not_lt.2 h)

theorem add_toNat_sub {p a : Uint64} : p + BitVec.ofNat 64 (a - p).toNat = a := by
  rw [BitVec.ofNat_toNat, BitVec.setWidth_eq]
  grind

/-- Two stores one after the other are one store of both. -/
theorem memmove_memmove {m : Uint64 → Byte} {pa : Uint64} {xs ys : List Byte}
    (h : xs.length + ys.length < 2 ^ 64) :
    memmove (memmove m (pa + BitVec.ofNat 64 xs.length) ys) pa xs = memmove m pa (xs ++ ys) := by
  funext a
  set i := (a - pa).toNat with hi
  have ha : a = pa + BitVec.ofNat 64 i := add_toNat_sub.symm
  have hlt : i < 2 ^ 64 := (a - pa).isLt
  by_cases hx : i < xs.length
  · rw [ha, memmove_offset hx hlt, memmove_offset (by rw [List.length_append]; omega) hlt,
      List.getElem_append_left hx]
  · rw [memmove_of_le (Nat.not_lt.1 hx)]
    have hsub : (a - (pa + BitVec.ofNat 64 xs.length)).toNat = i - xs.length := by
      have heq : a - (pa + BitVec.ofNat 64 xs.length) = a - pa - BitVec.ofNat 64 xs.length := by
        grind
      rw [heq, BitVec.toNat_sub, ← hi, BitVec.toNat_ofNat]
      omega
    by_cases hy : i < xs.length + ys.length
    · have hall : a = pa + BitVec.ofNat 64 xs.length + BitVec.ofNat 64 (i - xs.length) := by
        rw [BitVec.add_assoc, ← BitVec.ofNat_add, Nat.add_sub_cancel' (Nat.not_lt.1 hx)]
        exact ha
      have hstore := @memmove_offset m (pa + BitVec.ofNat 64 xs.length) ys
        (i - xs.length) (by omega) (by omega)
      rw [← hall] at hstore
      have hboth := @memmove_offset m pa (xs ++ ys) i
        (by rw [List.length_append]; omega) hlt
      rw [← ha] at hboth
      rw [hstore, hboth, List.getElem_append_right (Nat.not_lt.1 hx)]
    · rw [memmove_of_le (by omega), memmove_of_le (by rw [List.length_append]; omega)]

theorem Vm.store_store {vm : Vm} {pa : Uint64} {xs ys : List Byte}
    (h : xs.length + ys.length < 2 ^ 64) :
    (vm.store (pa + BitVec.ofNat 64 xs.length) ys).store pa xs = vm.store pa (xs ++ ys) := by
  simp only [Vm.store, memmove_memmove h]

/-! ## Pages -/

/-- Fill a page-table page with zero entries. -/
def Vm.zeroTable (vm : Vm) (pa : Uint64) : Vm :=
  { vm with pte := Function.update vm.pte pa fun _ => 0 }

/-- Store an entry: `pagetable[i] = e`. -/
def Vm.setPte (vm : Vm) (pagetable i e : Uint64) : Vm :=
  { vm with pte := Function.update vm.pte pagetable (Function.update (vm.pte pagetable) i e) }

/-- `kallocpage()`: a page filled with junk, or `0` when none is left. -/
def kallocpage : VmM Uint64 := fun vm =>
  match vm.freelist with
  | [] => some (0, vm)
  | l :: rest => some (l, { vm with freelist := rest, byte := memset vm.byte l 0xaf PGSIZE })

/-- `kfreepage(pa)`. -/
def kfreepage (pa : Uint64) : VmM Unit := fun vm =>
  let kvaddr := pa + KERNEL_DIRECT_MAPPING_BASE
  if !PGALIGNED pa || !(vm.kpageAllocatorBase ≤ kvaddr &&
      kvaddr < vm.kpageAllocatorBase + vm.kpageAllocatorSize) then none
  else some ((), { vm with byte := memset vm.byte pa 0xdd PGSIZE, freelist := pa :: vm.freelist })

/-- `kalloc(alloc)` on the free objects of an allocator, which panics when there
is none. -/
def kalloc (get : Vm → List Uint64) (put : Vm → List Uint64 → Vm) : VmM Uint64 := fun vm =>
  match get vm with
  | [] => none
  | obj :: rest => some (obj, put vm rest)

/-- `kfree(alloc, obj)`. -/
def kfree (get : Vm → List Uint64) (put : Vm → List Uint64 → Vm) (obj : Uint64) : VmM Unit :=
  fun vm => some ((), if obj = 0 then vm else put vm (obj :: get vm))

def kallocMm : VmM Uint64 := kalloc Vm.mmAllocator fun vm l => { vm with mmAllocator := l }
def kfreeMm : Uint64 → VmM Unit := kfree Vm.mmAllocator fun vm l => { vm with mmAllocator := l }
def kallocVma : VmM Uint64 := kalloc Vm.vmaAllocator fun vm l => { vm with vmaAllocator := l }
def kfreeVma : Uint64 → VmM Unit := kfree Vm.vmaAllocator fun vm l => { vm with vmaAllocator := l }
def kallocStr : VmM Uint64 := kalloc Vm.kstrbuf fun vm l => { vm with kstrbuf := l }
def kfreeStr : Uint64 → VmM Unit := kfree Vm.kstrbuf fun vm l => { vm with kstrbuf := l }

/-- Memory with 32 free pages. -/
def initVm : Vm where
  pte _ _ := 0
  byte _ := 0
  freelist := (List.range 32).map fun n => BitVec.ofNat 64 (0x100000 + 0x1000 * n)
  kpageAllocatorBase := KERNEL_DIRECT_MAPPING_BASE
  kpageAllocatorSize := 0x10000000
  mmAllocator := [1, 2, 3]
  vmaAllocator := [1, 2, 3, 4, 5, 6]
  kstrbuf := [1, 2]
  trampoline := 0x80000000

end SignalOS
