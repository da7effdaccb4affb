import SignalOS.Machine.Mmu
import SignalOS.Vm.Walk

/-!
# The page table of the kernel

`kvm.c`: the kernel's page table is built while the page allocator has no pages yet; tables and
stacks come from the 2 MiB behind the kernel image.

* `Kvm` — the memory with the state of the allocator of the boot stage.
* `allocsetuppage`, `allockernelpage` — the source's allocators.
* `kvmmap` — map a range, with pages of 2 MiB where addresses and size allow it.
* `kvmmake`, `kvmInit` — the kernel's page table.
-/

namespace SignalOS

def PGSIZE_2M : Uint64 := 0x200000
def KERNEL_VIRT_BASE : Uint64 := 0xffffffff80200000
def KERNEL_PHYS_BASE : Uint64 := 0x80200000
def KERNEL_OFFSET : Uint64 := KERNEL_VIRT_BASE - KERNEL_PHYS_BASE
def RISCV_DDR_BASE : Uint64 := 0x80000000
def KERNEL_STACK_SCHED : Uint64 := 0xffffffffff000000
def KERNEL_STACK_SIZE : Uint64 := 2 * PGSIZE
def KERNEL_DEVICE_MMIO_BASE : Uint64 := 0xffffffffd0000000
def KERNEL_PLIC_BASE : Uint64 := KERNEL_DEVICE_MMIO_BASE
def KERNEL_PLIC_SIZE : Uint64 := 0x4000000
def KERNEL_UART0_BASE : Uint64 := KERNEL_DEVICE_MMIO_BASE + KERNEL_PLIC_SIZE
def KERNEL_UART0_SIZE : Uint64 := PGSIZE
def UART0_PHYS : Uint64 := 0x10000000
def PLIC_PHYS : Uint64 := 0x0c000000
def NCPU : Nat := 4
def PHYS_MEM_SIZE : Uint64 := 128 * 1024 * 1024

/-- `IS_ALIGNED(a, base)`. -/
def IS_ALIGNED (a base : Uint64) : Bool := a &&& (base - 1) == 0

/-- `MAKE_PTE(pa, flags)`. -/
def MAKE_PTE (pa flags : Uint64) : Uint64 := PA2PTE pa ||| (flags ||| PTE_V)

def KIVA_TO_PA (x : Uint64) : Uint64 := x - KERNEL_OFFSET
def KVA_TO_PA (x : Uint64) : Uint64 := x - KERNEL_DIRECT_MAPPING_BASE
def PA_TO_KVA (x : Uint64) : Uint64 := x + KERNEL_DIRECT_MAPPING_BASE

/-- What the functions of `kvm.c` work on. -/
structure Kvm where
  vm : Vm
  /-- `init_page_allocator`, a direct-mapping address. -/
  initPageAllocator : Uint64
  initPageAllocatorBase : Uint64
  kallocInited : Bool
  /-- `getcpu(i)->sched_kstack_top`. -/
  schedKstackTop : Nat → Uint64
  /-- `kernel_pagetable`, by its physical address. -/
  kernelPagetable : Uint64

/-- A computation of the boot stage; `none` is a panic. -/
abbrev KvmM := StateT Kvm Option

def kvmPanic {α : Type} : KvmM α := fun _ => none

/-- `assert(x)`. -/
def kvmAssert (x : Bool) : KvmM Unit := if x then pure () else kvmPanic

/-- A computation on the memory alone. -/
def onMemory {α : Type} (x : VmM α) : KvmM α :=
  fun k => (x k.vm).map fun r => (r.1, { k with vm := r.2 })

/-- `allocsetuppage()`. -/
def allocsetuppage : KvmM Uint64 := do
  let k ← get
  kvmAssert (k.initPageAllocatorBase ≤ k.initPageAllocator)
  kvmAssert (k.initPageAllocator < k.initPageAllocatorBase + PGSIZE_2M)
  kvmAssert (PGALIGNED k.initPageAllocator)
  modify fun k => { k with initPageAllocator := k.initPageAllocator + PGSIZE }
  return k.initPageAllocator

/-- `allockernelpage()`. -/
def allockernelpage : KvmM Uint64 := do
  if (← get).kallocInited then
    let pa ← onMemory kallocpage
    if pa = 0 then kvmPanic else return PA_TO_KVA pa
  else allocsetuppage

/-! ## Mapping a range -/

/-- A new table, behind the entry at `pagetable[i]`. -/
def newTable (pagetable i : Uint64) : KvmM Uint64 := do
  let newpg ← allockernelpage
  modify fun k => { k with
    vm := (k.vm.zeroTable (KVA_TO_PA newpg)).setPte pagetable i (MAKE_PTE (KVA_TO_PA newpg) 0) }
  return KVA_TO_PA newpg

/-- The table behind a valid entry, which must not map a page. -/
def oldTable (pte : Uint64) : KvmM Uint64 :=
  if pte &&& PTE_R ≠ 0 ∨ pte &&& PTE_W ≠ 0 ∨ pte &&& PTE_X ≠ 0 then kvmPanic else return PTE2PA pte

/-- The table behind the entry `pte` at `pagetable[i]`, a new one if it is not valid. -/
def tableBehind (pagetable i pte : Uint64) : KvmM Uint64 :=
  if pte &&& PTE_V = 0 then newTable pagetable i else oldTable pte

/-- The first half of a turn of the loop of `kvmmap`: the level of the page to map and its slot. -/
def kvmSlot (kpgtbl vaddr paddr sz : Uint64) : KvmM (Nat × PteRef) := do
  let pte2 := (← get).vm.pte kpgtbl (PX 2 vaddr)
  let level1 ← tableBehind kpgtbl (PX 2 vaddr) pte2
  let pte1 := (← get).vm.pte level1 (PX 1 vaddr)
  if pte1 &&& PTE_V = 0 ∧ IS_ALIGNED vaddr PGSIZE_2M ∧ IS_ALIGNED paddr PGSIZE_2M ∧
      sz ≥ PGSIZE_2M then
    return (1, (level1, PX 1 vaddr))
  else
    let level0 ← tableBehind level1 (PX 1 vaddr) pte1
    let pte0 := (← get).vm.pte level0 (PX 0 vaddr)
    if pte0 &&& PTE_V ≠ 0 then kvmPanic else return (0, (level0, PX 0 vaddr))

/-- The loop of `kvmmap`, for at most `n` turns: `vaddr` and `sz` after it. -/
def kvmmapLoop (kpgtbl vaddrEnd : Uint64) (perm : Int) :
    Nat → Uint64 → Uint64 → Uint64 → KvmM (Uint64 × Uint64)
  | 0, _, _, _ => kvmPanic
  | n + 1, vaddr, paddr, sz =>
    if vaddr < vaddrEnd then do
      let (level, slot) ← kvmSlot kpgtbl vaddr paddr sz
      modify fun k => { k with vm := k.vm.setPte slot.1 slot.2 (MAKE_PTE paddr (ofInt perm)) }
      let size := if level = 1 then PGSIZE_2M else PGSIZE
      kvmmapLoop kpgtbl vaddrEnd perm n (vaddr + size) (paddr + size) (sz - size)
    else return (vaddr, sz)

/-- `kvmmap(kpgtbl, va, pa, sz, perm)`.  Its loop has one turn for each page at most. -/
def kvmmap (kpgtbl va pa sz : Uint64) (perm : Int) : KvmM Unit := do
  kvmAssert (PGALIGNED va)
  kvmAssert (PGALIGNED pa)
  kvmAssert (PGALIGNED sz)
  let (vaddr, left) ← kvmmapLoop kpgtbl (va + sz) perm (sz.toNat / 4096 + 1) va pa sz
  kvmAssert (vaddr == va + sz)
  kvmAssert (left == 0)

/-! ## The kernel's page table -/

/-- The symbols of the linker, and `kernel_image_end_2M`. -/
structure KernelImage where
  sText : Uint64
  eText : Uint64
  sRodata : Uint64
  eRodata : Uint64
  sData : Uint64
  eBss : Uint64
  trampoline : Uint64
  kernelImageEnd2M : Uint64

def permText : Int := toInt (PTE_A ||| PTE_R ||| PTE_X)
def permRodata : Int := toInt (PTE_A ||| PTE_R)
def permData : Int := toInt (PTE_A ||| PTE_D ||| PTE_R ||| PTE_W)

/-- Map `n` new pages at `va`. -/
def kvmStack (kpgtbl : Uint64) : Nat → Uint64 → KvmM Unit
  | 0, _ => pure ()
  | n + 1, va => do
    let newpg ← allockernelpage
    kvmmap kpgtbl va (KVA_TO_PA newpg) PGSIZE permData
    kvmStack kpgtbl n (va + PGSIZE)

/-- The scheduler stacks of `n` processors from the `i`-th on. -/
def kvmStacks (kpgtbl : Uint64) : Nat → Nat → Uint64 → KvmM Unit
  | 0, _, _ => pure ()
  | n + 1, i, schedStack => do
    kvmStack kpgtbl (KERNEL_STACK_SIZE / PGSIZE).toNat schedStack
    modify fun k =>
      { k with
      schedKstackTop := Function.update k.schedKstackTop i (schedStack + KERNEL_STACK_SIZE) }
    kvmStacks kpgtbl n (i + 1) (schedStack + 2 * KERNEL_STACK_SIZE)

/-- `available_mems`. -/
def KernelImage.availableMems (img : KernelImage) : Uint64 :=
  PHYS_MEM_SIZE - (img.kernelImageEnd2M - RISCV_DDR_BASE)

/-- The first steps of `kvmmake`: the kernel image, the trampoline and the devices. -/
def kvmStatic (kpgtbl : Uint64) (img : KernelImage) : KvmM Unit := do
  kvmmap kpgtbl img.sText (KIVA_TO_PA img.sText) (img.eText - img.sText) permText
  kvmmap kpgtbl img.sRodata (KIVA_TO_PA img.sRodata) (img.eRodata - img.sRodata) permRodata
  kvmmap kpgtbl img.sData (KIVA_TO_PA img.sData) (KIVA_TO_PA img.eBss - KIVA_TO_PA img.sData)
    permData
  kvmmap kpgtbl TRAMPOLINE (KIVA_TO_PA img.trampoline) PGSIZE permText
  kvmmap kpgtbl KERNEL_PLIC_BASE PLIC_PHYS KERNEL_PLIC_SIZE permData
  kvmmap kpgtbl KERNEL_UART0_BASE UART0_PHYS KERNEL_UART0_SIZE permData

/-- `kvmmake()`. -/
def kvmmake (img : KernelImage) : KvmM Uint64 := do
  let newpg ← allocsetuppage
  let kpgtbl := KVA_TO_PA newpg
  modify fun k => { k with vm := k.vm.zeroTable kpgtbl }
  -- Steps 1 to 3
  kvmStatic kpgtbl img
  -- Step 4: the stacks of the schedulers
  kvmStacks kpgtbl NCPU 0 KERNEL_STACK_SCHED
  -- Step 5: the direct mapping
  let availableMems := img.availableMems
  kvmAssert (0 < availableMems.toInt)
  kvmmap kpgtbl (KERNEL_DIRECT_MAPPING_BASE + img.kernelImageEnd2M) img.kernelImageEnd2M
    availableMems permData
  modify fun k => { k with vm := { k.vm with
    kpageAllocatorBase := k.initPageAllocator
    kpageAllocatorSize := availableMems - (k.initPageAllocator - k.initPageAllocatorBase) } }
  return kpgtbl

/-- `kvm_init()`. -/
def kvmInit (img : KernelImage) : KvmM Unit := do
  modify fun k => { k with
    initPageAllocator := KERNEL_DIRECT_MAPPING_BASE + img.kernelImageEnd2M
    initPageAllocatorBase := KERNEL_DIRECT_MAPPING_BASE + img.kernelImageEnd2M }
  let kpgtbl ← kvmmake img
  modify fun k => { k with kernelPagetable := kpgtbl, initPageAllocator := 0xdead }

end SignalOS
