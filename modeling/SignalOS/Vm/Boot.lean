import SignalOS.Vm.Kalloc
import SignalOS.Vm.KernelMap
import SignalOS.Vm.MapFailure

/-!
# From `kvm_init` to the page allocator

What the boot processor has done to the memory when `kpgmgrinit` returns.

* `kpgmgrinit` — `kalloc.c`: all pages of the pool are put into the free list.
* `Linked` — the image, as the linker script and `bootcpu_start_relocation` lay it out.
* `kernelMap` — the kernel's address space.
-/

namespace SignalOS

open Partial RadixTree

/-! ## The page allocator -/

/-- The loop of `kpgmgrinit`, for at most `n` turns. -/
def kpgmgrLoop : Nat → Uint64 → VmM Unit
  | 0, _ => kpanic
  | n + 1, p => do
    if p ≥ (← get).kpageAllocatorBase then
      kfreepage (KVA_TO_PA p)
      kpgmgrLoop n (p - PGSIZE)
    else return ()

/-- `kpgmgrinit()`. -/
def kpgmgrinit : KvmM Unit := do
  let vm := (← get).vm
  let kpageAllocatorEnd := vm.kpageAllocatorBase + vm.kpageAllocatorSize
  kvmAssert (PGALIGNED vm.kpageAllocatorBase)
  kvmAssert (PGALIGNED kpageAllocatorEnd)
  -- one turn for each page of the pool, and one to see the end
  onMemory (kpgmgrLoop (vm.kpageAllocatorSize.toNat / 4096 + 1) (kpageAllocatorEnd - PGSIZE))
  modify fun k => { k with kallocInited := true }

/-- The pages of `n` places from a physical address on. -/
def pagesFrom (pa : Uint64) (n : Nat) : List Uint64 :=
  (List.range n).map fun i => pa + BitVec.ofNat 64 (4096 * i)

theorem toNat_PA_TO_KVA {p : Uint64} (h : p.toNat < 2 ^ 38) :
    (PA_TO_KVA p).toNat = p.toNat + 0xffffffc000000000 := by
  rw [PA_TO_KVA, BitVec.toNat_add, show KERNEL_DIRECT_MAPPING_BASE.toNat =
    0xffffffc000000000 by decide]
  omega

/-- A page of the pool. -/
theorem toNat_poolPage {pa : Uint64} {i : Nat} (h : pa.toNat + 4096 * i < 2 ^ 38) :
    (pa + BitVec.ofNat 64 (4096 * i)).toNat = pa.toNat + 4096 * i := by
  rw [BitVec.toNat_add, BitVec.toNat_ofNat]
  omega

theorem mem_pagesFrom {pa p : Uint64} {n : Nat} (hstart : PageStart pa)
    (hfit : pa.toNat + 4096 * n < 2 ^ 38) :
    p ∈ pagesFrom pa n ↔ PageStart p ∧ pa.toNat ≤ p.toNat ∧ p.toNat < pa.toNat + 4096 * n := by
  rw [PageStart] at hstart
  rw [pagesFrom, List.mem_map, PageStart]
  constructor
  · rintro ⟨i, hi, rfl⟩
    rw [List.mem_range] at hi
    rw [toNat_poolPage (by omega)]
    omega
  · rintro ⟨hp, hlo, hhi⟩
    refine ⟨(p.toNat - pa.toNat) / 4096, List.mem_range.2 (by omega), BitVec.eq_of_toNat_eq ?_⟩
    rw [toNat_poolPage (by omega)]
    omega

theorem nodup_pagesFrom {pa : Uint64} {n : Nat} (hfit : pa.toNat + 4096 * n < 2 ^ 38) :
    (pagesFrom pa n).Nodup := by
  refine List.Nodup.map_on (fun i hi j hj heq => ?_) List.nodup_range
  rw [List.mem_range] at hi hj
  have hnat := congrArg BitVec.toNat heq
  rw [toNat_poolPage (by omega), toNat_poolPage (by omega)] at hnat
  omega

theorem pagesFrom_succ (pa : Uint64) (n : Nat) :
    pagesFrom pa (n + 1) = pa :: (pagesFrom pa (n + 1)).tail := by
  have hzero : pa + BitVec.ofNat 64 (4096 * 0) = pa := BitVec.add_zero pa
  rw [pagesFrom, List.range_succ_eq_map, List.map_cons, List.tail_cons, hzero]

/-- The pages of the boot stage. -/
theorem fresh_eq {k : Kvm} (hboot : k.kallocInited = false) :
    k.fresh = pagesFrom (KVA_TO_PA k.initPageAllocator)
    ((k.initPageAllocatorBase.toNat + 0x200000 - k.initPageAllocator.toNat) / 4096) := by
  rw [Kvm.fresh, hboot, pagesFrom]
  refine List.map_congr_left fun i _ => ?_
  rw [KVA_TO_PA, KVA_TO_PA]
  grind

/-- **The loop frees the pages from the last one down to the first.** -/
theorem kpgmgrLoop_frees {pa : Uint64} (hstart : PageStart pa) (hpos : 4096 ≤ pa.toNat) (n : Nat)
    (vm : Vm)
    (hbase : vm.kpageAllocatorBase = PA_TO_KVA pa) (hn : 4096 * n ≤ vm.kpageAllocatorSize.toNat)
    (hsize : pa.toNat + vm.kpageAllocatorSize.toNat < 2 ^ 38) :
    Ends (kpgmgrLoop (n + 1) (PA_TO_KVA (pa + BitVec.ofNat 64 (4096 * n)) - PGSIZE)) vm
      fun _ vm' =>
      vm'.freelist = pagesFrom pa n ++ vm.freelist ∧ vm'.pte = vm.pte ∧ Static vm vm' := by
  have hpg : PGSIZE.toNat = 4096 := rfl
  have hbase' : vm.kpageAllocatorBase.toNat = pa.toNat + 0xffffffc000000000 := by
    rw [hbase, toNat_PA_TO_KVA (by omega)]
  induction n generalizing vm with
  | zero =>
    have hlast : (PA_TO_KVA (pa + BitVec.ofNat 64 (4096 * 0)) - PGSIZE).toNat = pa.toNat +
        0xffffffc000000000 - 4096 := by
      rw [BitVec.toNat_sub, toNat_PA_TO_KVA (by rw [toNat_poolPage] <;> omega),
        toNat_poolPage (by omega), hpg]
      omega
    refine .get_bind (.ite (fun hge => ?_) fun _ => .pure ⟨rfl, rfl, ⟨rfl, rfl, rfl, rfl⟩⟩)
    rw [ge_iff_le, BitVec.le_def, hbase', hlast] at hge
    omega
  | succ n ih =>
    have hpage := @toNat_poolPage pa n (by omega)
    set q := pa + BitVec.ofNat 64 (4096 * n) with hq
    have hp : PA_TO_KVA (pa + BitVec.ofNat 64 (4096 * (n + 1))) - PGSIZE = PA_TO_KVA q := by
      apply BitVec.eq_of_toNat_eq
      rw [BitVec.toNat_sub, toNat_PA_TO_KVA (by rw [toNat_poolPage] <;> omega),
        toNat_poolPage (by omega), hpg,
        toNat_PA_TO_KVA (by omega)]
      omega
    have hqkva := toNat_PA_TO_KVA (p := q) (by omega)
    rw [hp]
    refine .get_bind (.ite (fun _ => ?_) fun hlt => ?_)
    · have hqstart : PageStart q := by
        rw [PageStart] at hstart ⊢
        omega
      have haccepts : vm.Accepts q := by
        refine ⟨?_, ?_⟩
        · show vm.kpageAllocatorBase ≤ PA_TO_KVA q
          rw [BitVec.le_def]
          omega
        · show PA_TO_KVA q < _
          rw [BitVec.lt_def, BitVec.toNat_add]
          omega
      rw [KVA_TO_PA_add]
      refine .bind_of_eq (kfreepage_accepts hqstart haccepts) ?_
      refine (ih (vm.give q) hbase (by show 4096 * n ≤ vm.kpageAllocatorSize.toNat; omega) hsize
        hbase').mono fun _ vm' h => ?_
      obtain ⟨hlist, hpte, hstatic⟩ := h
      refine ⟨?_, hpte, ⟨hstatic.base, hstatic.size, hstatic.trampoline, hstatic.kstrbuf⟩⟩
      rw [hlist, pagesFrom, pagesFrom, List.range_succ, List.map_append, List.append_assoc]
      rfl
    · rw [ge_iff_le, BitVec.le_def] at hlt
      omega

/-! ## The kernel's address space -/

/-- **The image**, as `kernel.ld` lays it out: text, trampoline, constants and data follow each
other, on pages of their own, and there is memory behind it. -/
structure Linked (img : KernelImage) : Prop where
  sText : img.sText = KERNEL_VIRT_BASE
  text : PageStart img.eText ∧ img.sText.toNat ≤ img.eText.toNat
  trampoline : PageStart img.trampoline ∧ img.eText.toNat ≤ img.trampoline.toNat
  sRodata : PageStart img.sRodata ∧ img.trampoline.toNat + 4096 ≤ img.sRodata.toNat
  eRodata : PageStart img.eRodata ∧ img.sRodata.toNat ≤ img.eRodata.toNat
  sData : PageStart img.sData ∧ img.eRodata.toNat ≤ img.sData.toNat
  eBss : PageStart img.eBss ∧ img.sData.toNat ≤ img.eBss.toNat
  /-- `kernel_image_end_2M` as `bootcpu_start_relocation` computes it. -/
  end2M : img.kernelImageEnd2M = KERNEL_PHYS_BASE + ROUNDUP_2N (img.eBss - img.sText) PGSIZE_2M
  fits : img.eBss.toNat ≤ KERNEL_VIRT_BASE.toNat + 124 * 1024 * 1024

def textFlags : Uint64 := PTE_A ||| PTE_R ||| PTE_X
def rodataFlags : Uint64 := PTE_A ||| PTE_R

theorem ofInt_permText : ofInt permText = textFlags := by decide
theorem ofInt_permRodata : ofInt permRodata = rodataFlags := by decide
theorem leafFlags_text : LeafFlags textFlags := ⟨by decide, by decide, by decide⟩
theorem leafFlags_rodata : LeafFlags rodataFlags := ⟨by decide, by decide, by decide⟩

namespace KernelImage

variable (img : KernelImage)

def text : Region := ⟨img.sText, KIVA_TO_PA img.sText, img.eText - img.sText, textFlags⟩
def rodata : Region :=
  ⟨img.sRodata, KIVA_TO_PA img.sRodata, img.eRodata - img.sRodata, rodataFlags⟩
def data : Region :=
  ⟨img.sData, KIVA_TO_PA img.sData, KIVA_TO_PA img.eBss - KIVA_TO_PA img.sData, dataFlags⟩
def trampolinePage : Region := ⟨TRAMPOLINE, KIVA_TO_PA img.trampoline, PGSIZE, textFlags⟩
def direct : Region :=
  ⟨KERNEL_DIRECT_MAPPING_BASE + img.kernelImageEnd2M, img.kernelImageEnd2M, img.availableMems,
    dataFlags⟩

end KernelImage

def plicRegion : Region := ⟨KERNEL_PLIC_BASE, PLIC_PHYS, KERNEL_PLIC_SIZE, dataFlags⟩
def uartRegion : Region := ⟨KERNEL_UART0_BASE, UART0_PHYS, KERNEL_UART0_SIZE, dataFlags⟩

/-- **The kernel's address space**, with the pages of the schedulers' stacks. -/
def kernelMap (img : KernelImage) (pss : List (List Uint64)) : List Region :=
  [img.text, img.rodata, img.data, img.trampolinePage, plicRegion, uartRegion] ++
    cpuRegions KERNEL_STACK_SCHED pss ++ [img.direct]

variable {img : KernelImage}

theorem toNat_KIVA_TO_PA {x : Uint64} (h : 0xffffffff00000000 ≤ x.toNat) :
    (KIVA_TO_PA x).toNat = x.toNat - 0xffffffff00000000 := by
  have := x.isLt
  rw [KIVA_TO_PA, BitVec.toNat_sub, show KERNEL_OFFSET.toNat = 0xffffffff00000000 by decide]
  omega

/-- The end of the image, as a number. -/
theorem Linked.toNat_end2M (h : Linked img) : img.kernelImageEnd2M.toNat % 2 ^ 21 = 0 ∧
    img.eBss.toNat - 0xffffffff00000000 ≤ img.kernelImageEnd2M.toNat ∧
      0x80200000 ≤ img.kernelImageEnd2M.toNat ∧
    img.kernelImageEnd2M.toNat ≤ 0x87e00000 := by
  have hbase : KERNEL_VIRT_BASE.toNat = 0xffffffff80200000 := by decide
  have hle : img.sText.toNat ≤ img.eBss.toNat := by
    have := h.text
    have := h.trampoline
    have := h.sRodata
    have := h.eRodata
    have := h.sData
    have := h.eBss
    omega
  have hfits := h.fits
  have hsize : (img.eBss - img.sText).toNat = img.eBss.toNat - img.sText.toNat :=
    BitVec.toNat_sub_of_le hle
  rw [h.sText, hbase] at hle hsize
  have hround := @toNat_ROUNDUP_2N (img.eBss - img.sText) PGSIZE_2M 21 (by decide) (by decide)
    (by rw [h.sText, hsize]; omega)
  rw [h.sText, hsize] at hround
  rw [h.end2M, BitVec.toNat_add, h.sText, hround, show KERNEL_PHYS_BASE.toNat =
    0x80200000 by decide]
  omega

/-! ### The regions -/

/-- A section of the image. -/
theorem section_ok {lo hi f : Uint64} (hlo : PageStart lo) (hhi : PageStart hi)
    (hle : lo.toNat ≤ hi.toNat)
    (hbase : 0xffffffff80200000 ≤ lo.toNat)
    (hend : hi.toNat ≤ 0xffffffff80200000 + 124 * 1024 * 1024) (hf : LeafFlags f) :
    (⟨lo, KIVA_TO_PA lo, hi - lo, f⟩ : Region).Ok ∧
      (⟨lo, KIVA_TO_PA lo, hi - lo, f⟩ : Region).tables ≤ 64 := by
  have hsz : (hi - lo).toNat = hi.toNat - lo.toNat := BitVec.toNat_sub_of_le hle
  have hpa := toNat_KIVA_TO_PA (x := lo) (by omega)
  rw [PageStart] at hlo hhi
  refine ⟨⟨hlo, ?_, ?_, .inr ⟨?_, ?_⟩, ?_, hf⟩, ?_⟩
  · show (KIVA_TO_PA lo).toNat % 4096 = 0
    omega
  · show (hi - lo).toNat % 4096 = 0
    omega
  · show _ ≤ lo.toNat
    omega
  · show lo.toNat + (hi - lo).toNat < _
    omega
  · show (KIVA_TO_PA lo).toNat + (hi - lo).toNat ≤ _
    omega
  · show (lo.toNat + (hi - lo).toNat - 1) / 2 ^ 30 + 1 - lo.toNat / 2 ^ 30 +
      ((lo.toNat + (hi - lo).toNat - 1) / 2 ^ 21 + 1 - lo.toNat / 2 ^ 21) ≤ 64
    omega

/-- Where the regions of the image are. -/
structure Sections (img : KernelImage) : Prop where
  text : img.text.va.toNat = 0xffffffff80200000 ∧ img.text.va.toNat + img.text.sz.toNat =
    img.eText.toNat
  rodata : img.rodata.va = img.sRodata ∧ img.rodata.va.toNat + img.rodata.sz.toNat =
    img.eRodata.toNat
  data : img.data.va = img.sData ∧ img.data.va.toNat + img.data.sz.toNat = img.eBss.toNat
  order : 0xffffffff80200000 ≤ img.eText.toNat ∧ img.eText.toNat ≤ img.trampoline.toNat ∧
    img.trampoline.toNat + 4096 ≤ img.sRodata.toNat ∧ img.sRodata.toNat ≤ img.eRodata.toNat ∧
    img.eRodata.toNat ≤ img.sData.toNat ∧ img.sData.toNat ≤ img.eBss.toNat ∧
    img.eBss.toNat ≤ 0xffffffff80200000 + 124 * 1024 * 1024

theorem Linked.sections (h : Linked img) : Sections img := by
  have hbase : KERNEL_VIRT_BASE.toNat = 0xffffffff80200000 := by decide
  obtain ⟨hstart, ⟨-, htext⟩, ⟨-, htramp⟩, ⟨-, hsro⟩, ⟨-, hero⟩, ⟨-, hsd⟩, ⟨-, hbss⟩, -, hfits⟩ :=
    h
  rw [hbase] at hfits
  have hs : img.sText.toNat = 0xffffffff80200000 := by rw [hstart, hbase]
  have hsz {lo hi : Uint64} (hle : lo.toNat ≤ hi.toNat) :
      lo.toNat + (hi - lo).toNat = hi.toNat := by
    rw [BitVec.toNat_sub_of_le hle]
    omega
  have hdata : img.data.sz = img.eBss - img.sData := by
    show KIVA_TO_PA img.eBss - KIVA_TO_PA img.sData = _
    rw [KIVA_TO_PA, KIVA_TO_PA]
    grind
  refine ⟨⟨hs, hsz htext⟩, ⟨rfl, hsz hero⟩, ⟨rfl, ?_⟩, by omega⟩
  rw [hdata]
  exact hsz hbss

theorem Linked.direct_ok (h : Linked img) : img.direct.Ok ∧ img.direct.tables ≤ 65 ∧
    img.direct.va.toNat = 0xffffffc000000000 + img.kernelImageEnd2M.toNat ∧
    img.direct.sz.toNat = 0x88000000 - img.kernelImageEnd2M.toNat := by
  obtain ⟨hmod, -, hlo, hhi⟩ := h.toNat_end2M
  have hva : img.direct.va.toNat = 0xffffffc000000000 + img.kernelImageEnd2M.toNat := by
    show (KERNEL_DIRECT_MAPPING_BASE + img.kernelImageEnd2M).toNat = _
    rw [BitVec.toNat_add, show KERNEL_DIRECT_MAPPING_BASE.toNat = 0xffffffc000000000 by decide]
    omega
  have hsz : img.direct.sz.toNat = 0x88000000 - img.kernelImageEnd2M.toNat := by
    show (PHYS_MEM_SIZE - (img.kernelImageEnd2M - RISCV_DDR_BASE)).toNat = _
    rw [BitVec.toNat_sub, BitVec.toNat_sub, show PHYS_MEM_SIZE.toNat = 0x8000000 by decide,
      show RISCV_DDR_BASE.toNat = 0x80000000 by decide]
    omega
  have hpa : img.direct.pa = img.kernelImageEnd2M := rfl
  refine ⟨⟨?_, ?_, ?_, .inr ⟨?_, ?_⟩, ?_, leafFlags_data⟩, ?_, hva, hsz⟩
  · rw [PageStart, hva]
    omega
  · rw [PageStart, hpa]
    omega
  · rw [PageStart, hsz]
    omega
  · omega
  · omega
  · rw [hpa]
    omega
  · rw [Region.tables, hva, hsz]
    omega

theorem trampolinePage_ok (h : Linked img) :
    img.trampolinePage.Ok ∧ img.trampolinePage.tables ≤ 2 := by
  have hnum := h.sections.order
  have hpa := toNat_KIVA_TO_PA (x := img.trampoline) (by omega)
  have hstart := h.trampoline.1
  rw [PageStart] at hstart
  refine ⟨⟨show PageStart TRAMPOLINE by decide, ?_, pageStart_PGSIZE,
    .inl (show TRAMPOLINE.toNat + PGSIZE.toNat ≤ 2 ^ 38 by decide), ?_, leafFlags_text⟩, ?_⟩
  · show (KIVA_TO_PA img.trampoline).toNat % 4096 = 0
    omega
  · show (KIVA_TO_PA img.trampoline).toNat + PGSIZE.toNat ≤ _
    rw [show PGSIZE.toNat = 4096 from rfl]
    omega
  · show (TRAMPOLINE.toNat + PGSIZE.toNat - 1) / 2 ^ 30 + 1 - TRAMPOLINE.toNat / 2 ^ 30 +
      ((TRAMPOLINE.toNat + PGSIZE.toNat - 1) / 2 ^ 21 + 1 - TRAMPOLINE.toNat / 2 ^ 21) ≤ 2
    decide

theorem plic_ok : plicRegion.Ok ∧ plicRegion.tables ≤ 33 :=
  ⟨⟨by decide, by decide, by decide, .inr (by decide), by decide, leafFlags_data⟩, by decide⟩

theorem uart_ok : uartRegion.Ok ∧ uartRegion.tables ≤ 2 :=
  ⟨⟨by decide, by decide, by decide, .inr (by decide), by decide, leafFlags_data⟩, by decide⟩

/-! ### `kvm_init` -/

theorem mem_cpuRegions {s : Uint64} {pss : List (List Uint64)} {r : Region}
    (hlen : ∀ ps ∈ pss, ps.length = 2)
    (hfit : s.toNat + 16384 * pss.length < 2 ^ 64) (hr : r ∈ cpuRegions s pss) :
    s.toNat ≤ r.va.toNat ∧
      r.va.toNat + r.sz.toNat ≤ s.toNat + 16384 * pss.length ∧ r.sz = PGSIZE ∧
        r.flags = dataFlags ∧ r.pa ∈ pss.flatten := by
  have hsize : (2 * KERNEL_STACK_SIZE).toNat = 16384 := by decide
  induction pss generalizing s with
  | nil => cases hr
  | cons ps pss ih =>
    have htwo := hlen ps List.mem_cons_self
    rw [List.length_cons] at hfit ⊢
    rw [cpuRegions, List.mem_append] at hr
    rw [List.flatten_cons, List.mem_append]
    rcases hr with hr | hr
    · obtain ⟨hlo, hhi, hsz, hflags, hpa⟩ := stack_of_stackRegions (by omega) hr
      exact ⟨hlo, by omega, hsz, hflags, .inl hpa⟩
    · have hnext : (s + 2 * KERNEL_STACK_SIZE).toNat = s.toNat + 16384 := by
        rw [BitVec.toNat_add, hsize]
        omega
      obtain ⟨hlo, hhi, hsz, hflags, hpa⟩ :=
        ih (fun qs hqs => hlen qs (List.mem_cons_of_mem _ hqs)) (by omega) hr
      exact ⟨by omega, by omega, hsz, hflags, .inr hpa⟩

/-- **What `kvm_init` leaves**: the kernel's address space, and the pool of the page allocator,
which begins at `b`, behind the tables and the stacks. -/
structure KvmInited (img : KernelImage) (pss : List (List Uint64)) (b : Uint64) (k₀ k : Kvm) :
    Prop where
  apart : Apart kindOf k.vm.pte k.kernelPagetable 3
  entries : EntriesOk k.vm.pte k.kernelPagetable
  xlate : ∀ a, Mmu.xlate k.vm.pte k.kernelPagetable a = lookup (kernelMap img pss) a
  shape : pss.length = NCPU ∧ ∀ ps ∈ pss, ps.length = 2
  tops : ∀ i < NCPU, k.schedKstackTop i = KERNEL_STACK_SCHED + BitVec.ofNat 64 (16384 * i + 8192)
  pool : PageStart b ∧ img.kernelImageEnd2M.toNat ≤ b.toNat ∧
    b.toNat ≤ img.kernelImageEnd2M.toNat + 0x200000
  poolBase : k.vm.kpageAllocatorBase = PA_TO_KVA b
  poolSize : k.vm.kpageAllocatorSize.toNat = 0x88000000 - b.toNat
  tables : ∀ js p, js.length < 3 → table kindOf k.vm.pte k.kernelPagetable js = some p →
    PageStart p ∧ img.kernelImageEnd2M.toNat ≤ p.toNat ∧ p.toNat < b.toNat
  nodup : pss.flatten.Nodup
  kstack : ∀ p ∈ pss.flatten, (PageStart p ∧ img.kernelImageEnd2M.toNat ≤ p.toNat ∧
    p.toNat < b.toNat) ∧
    ∀ js, js.length < 3 → table kindOf k.vm.pte k.kernelPagetable js ≠ some p
  list : k.vm.freelist = k₀.vm.freelist
  inited : k.kallocInited = k₀.kallocInited

/-- The regions that are mapped first are not near the stacks and not in the direct mapping. -/
theorem Linked.static_bounds (hl : Linked img) {r : Region}
    (hr : r ∈ [img.text, img.rodata, img.data, img.trampolinePage, plicRegion, uartRegion]) :
    0xffffffff80200000 ≤ r.va.toNat ∧ r.va.toNat + r.sz.toNat ≤ 0xfffffffff0000000 ∨
      r.va.toNat + r.sz.toNat ≤ 2 ^ 38 := by
  obtain ⟨htext, hrodata, hdata, horder⟩ := hl.sections
  have hsro : img.rodata.va.toNat = img.sRodata.toNat := congrArg BitVec.toNat hrodata.1
  have hsd : img.data.va.toNat = img.sData.toNat := congrArg BitVec.toNat hdata.1
  simp only [List.mem_cons, List.not_mem_nil, or_false] at hr
  rcases hr with rfl | rfl | rfl | rfl | rfl | rfl
  · omega
  · omega
  · omega
  · exact .inr (show TRAMPOLINE.toNat + PGSIZE.toNat ≤ 2 ^ 38 by decide)
  · exact .inl (by decide)
  · exact .inl (by decide)

/-- The pages that the boot stage has taken lie before the next one. -/
theorem taken_lt {k : Kvm} {e p : Uint64} (hok : FreshOk k) (hboot : k.kallocInited = false)
    (hbase : k.initPageAllocatorBase = KERNEL_DIRECT_MAPPING_BASE + e)
    (he : e.toNat ≤ 0x87e00000) :
    PageStart (KVA_TO_PA k.initPageAllocator) ∧ e.toNat ≤ (KVA_TO_PA k.initPageAllocator).toNat ∧
      (KVA_TO_PA k.initPageAllocator).toNat ≤ e.toNat + 0x200000 ∧
      (p ∈ pagesFrom e 512 → p ∉ k.fresh → PageStart p ∧ e.toNat ≤ p.toNat ∧
        p.toNat < (KVA_TO_PA k.initPageAllocator).toNat) := by
  obtain ⟨hbstart, histart, hlo, hhi, hlt⟩ := hok.boot hboot
  have hkdmb : KERNEL_DIRECT_MAPPING_BASE.toNat = 0xffffffc000000000 := by decide
  have hbase' : k.initPageAllocatorBase.toNat = 0xffffffc000000000 + e.toNat := by
    rw [hbase, BitVec.toNat_add, hkdmb]
    omega
  rw [PageStart] at hbstart histart
  have hb : (KVA_TO_PA k.initPageAllocator).toNat = k.initPageAllocator.toNat -
      0xffffffc000000000 := by
    have := k.initPageAllocator.isLt
    rw [KVA_TO_PA, BitVec.toNat_sub, hkdmb]
    omega
  have hstart : PageStart (KVA_TO_PA k.initPageAllocator) := by
    rw [PageStart]
    omega
  refine ⟨hstart, by omega, by omega, fun hp hnot => ?_⟩
  rw [mem_pagesFrom (by rw [PageStart]; omega) (by omega)] at hp
  rw [fresh_eq hboot, mem_pagesFrom hstart (by omega)] at hnot
  obtain ⟨hpstart, hple, hplt⟩ := hp
  refine ⟨hpstart, hple, ?_⟩
  by_contra hge
  rw [PageStart] at hpstart
  exact hnot ⟨hpstart, by omega, by omega⟩

/-- The first mappings, one after the other. -/
theorem Booting.kvmStatic {k₀ k : Kvm} {root : Uint64} (h : Booting k₀ root [] [] 511 k)
    (hl : Linked img) :
    Ends (kvmStatic root img) k fun _ k' =>
      Booting k₀ root [img.text, img.rodata, img.data, img.trampolinePage, plicRegion, uartRegion]
        [] 282 k' := by
  obtain ⟨htext, hrodata, hdata, horder⟩ := hl.sections
  have hbase : img.sText.toNat = 0xffffffff80200000 := htext.1
  have htramp : img.trampolinePage.va.toNat + img.trampolinePage.sz.toNat = 2 ^ 38 :=
    show TRAMPOLINE.toNat + PGSIZE.toNat = 2 ^ 38 by decide
  have hplic : plicRegion.va.toNat = 0xffffffffd0000000 ∧
      plicRegion.va.toNat + plicRegion.sz.toNat = 0xffffffffd4000000 := by
    decide
  have huart : uartRegion.va.toNat = 0xffffffffd4000000 := by decide
  have hstart : PageStart img.sText := by
    rw [PageStart]
    omega
  have hsro : img.rodata.va.toNat = img.sRodata.toNat := congrArg BitVec.toNat hrodata.1
  have hsd : img.data.va.toNat = img.sData.toNat := congrArg BitVec.toNat hdata.1
  have hsz : KIVA_TO_PA img.eBss - KIVA_TO_PA img.sData = img.eBss - img.sData := by
    rw [KIVA_TO_PA, KIVA_TO_PA]
    grind
  obtain ⟨hok, hn⟩ := section_ok hstart hl.text.1 hl.text.2 (by omega) (by omega) leafFlags_text
  refine .bind (h.kvmmap (r := img.text) hok ofInt_permText
    (fun r hr => (List.not_mem_nil hr).elim) hn (by decide))
    fun _ k₁ h₁ => ?_
  obtain ⟨hok, hn⟩ :=
    section_ok hl.sRodata.1 hl.eRodata.1 hl.eRodata.2 (by omega) (by omega) leafFlags_rodata
  refine .bind (h₁.1.kvmmap (r := img.rodata) hok ofInt_permRodata (fun r hr => ?_) hn (by decide))
    fun _ k₂ h₂ => ?_
  · rw [List.mem_singleton.1 hr, Region.Apart]
    omega
  obtain ⟨hok, hn⟩ :=
    section_ok hl.sData.1 hl.eBss.1 hl.eBss.2 (by omega) (by omega) leafFlags_data
  rw [← hsz] at hok hn
  refine .bind (h₂.1.kvmmap (r := img.data) hok ofInt_permData (fun r hr => ?_) hn (by decide))
    fun _ k₃ h₃ => ?_
  · simp only [List.nil_append, List.cons_append, List.mem_cons, List.not_mem_nil, or_false] at hr
    rw [Region.Apart]
    rcases hr with rfl | rfl <;> omega
  obtain ⟨hok, hn⟩ := trampolinePage_ok hl
  refine .bind (h₃.1.kvmmap (r := img.trampolinePage) hok ofInt_permText (fun r hr => ?_) hn
    (by decide)) fun _ k₄ h₄ => ?_
  · simp only [List.nil_append, List.cons_append, List.mem_cons, List.not_mem_nil, or_false] at hr
    rw [Region.Apart]
    rcases hr with rfl | rfl | rfl <;> omega
  obtain ⟨hok, hn⟩ := plic_ok
  refine .bind (h₄.1.kvmmap (r := plicRegion) hok ofInt_permData (fun r hr => ?_) hn (by decide))
    fun _ k₅ h₅ => ?_
  · simp only [List.nil_append, List.cons_append, List.mem_cons, List.not_mem_nil, or_false] at hr
    rw [Region.Apart]
    rcases hr with rfl | rfl | rfl | rfl <;> omega
  obtain ⟨hok, hn⟩ := uart_ok
  refine (h₅.1.kvmmap (r := uartRegion) hok ofInt_permData (fun r hr => ?_) hn (by decide)).mono
    fun _ k₆ h₆ => h₆.1
  simp only [List.nil_append, List.cons_append, List.mem_cons, List.not_mem_nil, or_false] at hr
  rw [Region.Apart]
  rcases hr with rfl | rfl | rfl | rfl | rfl <;> omega

/-- The first page of the boot stage becomes the root. -/
theorem kvmRoot {k : Kvm} (hl : Linked img) (hboot : k.kallocInited = false)
    (hinit : k.initPageAllocator = KERNEL_DIRECT_MAPPING_BASE + img.kernelImageEnd2M)
    (hbase : k.initPageAllocatorBase = KERNEL_DIRECT_MAPPING_BASE + img.kernelImageEnd2M) :
    Ends allocsetuppage k fun newpg k' => newpg = PA_TO_KVA img.kernelImageEnd2M ∧
      img.kernelImageEnd2M ∉ k'.fresh ∧
      FreshOk k' ∧ SameBoot k k' ∧ k'.fresh = (pagesFrom img.kernelImageEnd2M 512).tail := by
  obtain ⟨hmod, -, hlo, hhi⟩ := hl.toNat_end2M
  have hbase' : k.initPageAllocatorBase.toNat = 0xffffffc000000000 +
      img.kernelImageEnd2M.toNat := by
    rw [hbase, BitVec.toNat_add, show KERNEL_DIRECT_MAPPING_BASE.toNat =
      0xffffffc000000000 by decide]
    omega
  have hsame : k.initPageAllocator = k.initPageAllocatorBase := hinit.trans hbase.symm
  have hpa : KVA_TO_PA k.initPageAllocator = img.kernelImageEnd2M := by
    rw [hinit, KVA_TO_PA, BitVec.add_comm]
    exact BitVec.add_sub_cancel ..
  have hstart : PageStart img.kernelImageEnd2M := by
    rw [PageStart]
    omega
  have hfresh : k.fresh = pagesFrom img.kernelImageEnd2M 512 := by
    rw [fresh_eq hboot, hpa, hsame, Nat.add_sub_cancel_left]
  have hok : FreshOk k := by
    refine ⟨hfresh ▸ nodup_pagesFrom (by omega), fun p hp => ?_, fun _ => ?_⟩
    · rw [hfresh, mem_pagesFrom hstart (by omega)] at hp
      refine ⟨hp.1, ?_, by omega⟩
      rintro rfl
      have : (0 : Uint64).toNat = 0 := rfl
      omega
    · rw [hsame, PageStart]
      omega
  have hcons : k.fresh = img.kernelImageEnd2M :: (pagesFrom img.kernelImageEnd2M 512).tail := by
    rw [hfresh]
    exact pagesFrom_succ _ 511
  have hsetup : allocsetuppage k = allockernelpage k := by
    show _ = (if k.kallocInited then _ else allocsetuppage : KvmM Uint64) k
    rw [hboot]
    rfl
  have hends := allockernelpage_fresh hok hcons
  rw [Ends, ← hsetup] at hends
  refine Ends.mono hends fun r k' hr => ?_
  obtain ⟨rfl, hrest, -, hok', hsame⟩ := hr
  refine ⟨rfl, ?_, hok', hsame, hrest⟩
  have hnodup := hok.nodup
  rw [hcons, List.nodup_cons] at hnodup
  rw [hrest]
  exact hnodup.1

/-- The page table is empty at first. -/
theorem Booting.root {k : Kvm} {root : Uint64} {m : Nat} (hok : FreshOk k) (hroot : root ∉ k.fresh)
    (hm : m ≤ k.fresh.length) :
    Booting { k with vm := k.vm.zeroTable root } root [] [] m
      { k with vm := k.vm.zeroTable root } := by
  have hzero (i : Uint64) : (k.vm.zeroTable root).pte root i = 0 := by
    show Function.update k.vm.pte root (fun _ => 0) root i = 0
    rw [Function.update_self]
  have hok' : FreshOk { k with vm := k.vm.zeroTable root } := ⟨hok.nodup, hok.page, hok.boot⟩
  obtain ⟨htree, hnone⟩ :=
    KernelTree.zero (k := { k with vm := k.vm.zeroTable root }) hzero hroot hok'
  refine ⟨htree, fun js p _ ht => .inl (table_zero hzero ht).2, .refl, fun a => hnone a,
    fun r hr => ?_, List.nodup_nil,
    fun p hp => ?_, hm⟩
  · exact (List.not_mem_nil hr).elim
  · exact (List.not_mem_nil hp).elim

/-- **`kvm_init` builds the kernel's address space.** -/
theorem kvmInit_inited {k : Kvm} (hl : Linked img) (hboot : k.kallocInited = false) :
    Ends (kvmInit img) k fun _ k' => ∃ pss b, KvmInited img pss b k k' := by
  obtain ⟨hmod, hbss, hlo, hhi⟩ := hl.toNat_end2M
  obtain ⟨hdirect, htables, hdva, hdsz⟩ := hl.direct_ok
  obtain ⟨htext, hrodata, hdata, horder⟩ := hl.sections
  have hstart : PageStart img.kernelImageEnd2M := by
    rw [PageStart]
    omega
  refine .modify_bind ?_
  set k₁ : Kvm := { k with
    initPageAllocator := KERNEL_DIRECT_MAPPING_BASE + img.kernelImageEnd2M
    initPageAllocatorBase := KERNEL_DIRECT_MAPPING_BASE + img.kernelImageEnd2M } with hk₁
  refine .bind (Q := fun root k' => ∃ pss b,
    KvmInited img pss b k { k' with kernelPagetable := root }) ?_
    fun root k' h => .modify_bind (.pure ?_)
  · refine .bind (kvmRoot hl (k := k₁) hboot rfl rfl) fun newpg k₂ hk₂ => ?_
    obtain ⟨rfl, hroot, hok, hsame, hfresh⟩ := hk₂
    rw [KVA_TO_PA_add]
    refine .modify_bind (.bind ((Booting.root hok hroot ?_).kvmStatic hl) fun _ k₃ h₃ => ?_)
    · rw [hfresh, pagesFrom]
      simp
    have hsched : KERNEL_STACK_SCHED.toNat = 0xffffffffff000000 := by decide
    refine .bind (h₃.kvmStacks (n := NCPU) (s := KERNEL_STACK_SCHED) (i := 0) (by decide)
      (by decide) (fun r hr => ?_)
      (by decide)) fun _ k₄ h₄ => ?_
    · have := hl.static_bounds hr
      rw [hsched]
      omega
    obtain ⟨pss, hlen, htwo, h₄, htops⟩ := h₄
    have hncpu : pss.length = 4 := hlen
    have havail : 0 < img.availableMems.toInt := by
      have hsz : img.availableMems.toNat = 0x88000000 - img.kernelImageEnd2M.toNat := hdsz
      rw [BitVec.toInt_eq_toNat_of_lt (by omega)]
      omega
    refine .bind_of_eq (t := k₄) (a := ⟨⟩) ?_ ?_
    · rw [kvmAssert, if_pos (decide_eq_true havail)]
      rfl
    refine .bind (h₄.kvmmap (r := img.direct) hdirect ofInt_permData (fun r hr => ?_) htables
      (by decide)) fun _ k₅ h₅ => ?_
    · rw [Region.Apart, hdva, hdsz]
      rcases List.mem_append.1 hr with hr | hr
      · have := hl.static_bounds hr
        omega
      · obtain ⟨hge, -⟩ := mem_cpuRegions htwo (by rw [hsched]; omega) hr
        rw [hsched] at hge
        omega
    obtain ⟨h₅, htops₅⟩ := h₅
    refine .modify_bind (.pure ⟨pss, KVA_TO_PA k₅.initPageAllocator, ?_⟩)
    have hboot₅ : k₅.kallocInited = false := h₅.same.inited.trans (hsame.inited.trans hboot)
    have hbase₅ : k₅.initPageAllocatorBase = KERNEL_DIRECT_MAPPING_BASE + img.kernelImageEnd2M :=
      h₅.same.base.trans hsame.base
    have htaken (p : Uint64) := @taken_lt k₅ _ p h₅.tree.fresh hboot₅ hbase₅ hhi
    obtain ⟨hbstart, hblo, hbhi, -⟩ := htaken 0
    have hfirst (p : Uint64) (hp : p = img.kernelImageEnd2M ∨ p ∈ k₂.fresh) :
        p ∈ pagesFrom img.kernelImageEnd2M 512 := by
      rw [pagesFrom_succ _ 511, List.mem_cons, ← hfresh]
      exact hp
    refine ⟨h₅.tree.apart, h₅.tree.entries, fun a => ?_, ⟨hlen, htwo⟩, fun i hi => ?_,
      ⟨hbstart, hblo, hbhi⟩, ?_, ?_,
      fun js p hjs ht => ?_, h₅.nodup, fun p hp => ?_, ?_, ?_⟩
    · exact h₅.xlate a
    · refine (congrFun htops₅ i).trans ((htops i).trans ?_)
      rw [if_pos ⟨Nat.zero_le i, by rw [Nat.zero_add]; exact hi⟩, Nat.sub_zero]
    · exact (PA_TO_KVA_sub _).symm
    · have hinit := toNat_PA_TO_KVA (p := KVA_TO_PA k₅.initPageAllocator) (by omega)
      rw [PA_TO_KVA_sub] at hinit
      have hbase : k₅.initPageAllocatorBase.toNat = 0xffffffc000000000 +
          img.kernelImageEnd2M.toNat := by
        rw [hbase₅]
        exact hdva
      have hsz : img.availableMems.toNat = 0x88000000 - img.kernelImageEnd2M.toNat := hdsz
      show (img.availableMems - (k₅.initPageAllocator - k₅.initPageAllocatorBase)).toNat = _
      rw [BitVec.toNat_sub, BitVec.toNat_sub]
      omega
    · exact (htaken p).2.2.2 (hfirst p (h₅.tables js p hjs ht)) fun hin =>
        h₅.tree.unused p hin js hjs ht
    · obtain ⟨hin, hnot, htable⟩ := h₅.taken p hp
      exact ⟨(htaken p).2.2.2 (hfirst p (.inr hin)) hnot, htable⟩
    · exact (h₅.same.list (hsame.inited.trans hboot)).trans (hsame.list hboot)
    · exact hboot₅.trans hboot.symm
  · obtain ⟨pss, b, h⟩ := h
    exact ⟨pss, b, h.apart, h.entries, h.xlate, h.shape, h.tops, h.pool, h.poolBase, h.poolSize,
      h.tables, h.nodup, h.kstack,
      h.list, h.inited⟩

end SignalOS
