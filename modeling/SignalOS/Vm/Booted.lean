import SignalOS.Vm.Boot

/-!
# The kernel's memory after boot

"After boot" is the state in which `kpgmgrinit` returns: the pages that `allocator_init` and
`proc_init` map later, for object pools and kernel stacks, are not there yet.

* `Booted` — the memory when `kpgmgrinit` has returned.
* `kernel_boots` — **the boot processor gets there**, from any contents of the memory.
* `no_writable_code` — **no page of code can be written through any address** of the kernel.
-/

namespace SignalOS

open Partial RadixTree

variable {img : KernelImage} {pss : List (List Uint64)} {b : Uint64} {k₀ k : Kvm}

/-! ## What is mapped where -/

/-- The regions of the kernel's address space have no address in common with the direct mapping. -/
theorem Linked.not_direct (hl : Linked img) (hlen : pss.length = NCPU)
    (htwo : ∀ ps ∈ pss, ps.length = 2) {a : Uint64}
    (ha : a - img.direct.va < img.direct.sz) {r : Region}
    (hr : r ∈ [img.text, img.rodata, img.data, img.trampolinePage, plicRegion, uartRegion] ++
      cpuRegions KERNEL_STACK_SCHED pss) : ¬ a - r.va < r.sz := by
  obtain ⟨-, -, hlo, hhi⟩ := hl.toNat_end2M
  obtain ⟨hdirect, -, hdva, hdsz⟩ := hl.direct_ok
  have hsched : KERNEL_STACK_SCHED.toNat = 0xffffffffff000000 := by decide
  have hncpu : pss.length = 4 := hlen
  have hapart : img.direct.Apart r ∧ r.va.toNat + r.sz.toNat < 2 ^ 64 := by
    rw [Region.Apart, hdva, hdsz]
    rcases List.mem_append.1 hr with hr | hr
    · have := hl.static_bounds hr
      omega
    · obtain ⟨hge, hle, -⟩ := mem_cpuRegions htwo (by rw [hsched]; omega) hr
      rw [hsched] at hge hle
      omega
  exact hapart.1.not_both (by omega) hapart.2 ha

/-- The memory behind the image is mapped where `PA_TO_KVA` says. -/
theorem KvmInited.direct (h : KvmInited img pss b k₀ k) (hl : Linked img) {p : Uint64}
    (hlo : img.kernelImageEnd2M.toNat ≤ p.toNat) (hhi : p.toNat < 0x88000000) :
    Mmu.xlate k.vm.pte k.kernelPagetable (PA_TO_KVA p) = some (p, dataFlags ||| PTE_V) := by
  obtain ⟨-, -, -, hdsz⟩ := hl.direct_ok
  have hoff : PA_TO_KVA p - img.direct.va = p - img.kernelImageEnd2M := by
    show p + KERNEL_DIRECT_MAPPING_BASE - (KERNEL_DIRECT_MAPPING_BASE + img.kernelImageEnd2M) = _
    grind
  have hin : PA_TO_KVA p - img.direct.va < img.direct.sz := by
    rw [hoff, BitVec.lt_def, hdsz, BitVec.toNat_sub_of_le hlo]
    omega
  have hpa : img.direct.pa + (p - img.kernelImageEnd2M) = p := by
    show img.kernelImageEnd2M + (p - img.kernelImageEnd2M) = p
    grind
  rw [h.xlate, kernelMap, lookup_append, lookup_none fun r hr => hl.not_direct h.shape.1 h.shape.2
    hin hr, Option.none_or,
    lookup, if_pos hin, hoff, hpa]
  rfl

/-! ## The page allocator -/

/-- **The kernel's memory after boot**: the address space, the pages of the tables and of the
stacks, and the pool of the page allocator are all apart. -/
structure Booted (img : KernelImage) (pss : List (List Uint64)) (b : Uint64) (k : Kvm) : Prop where
  tree : KernelTree k k.kernelPagetable
  root : PageStart k.kernelPagetable
  free : FreeOk k.vm
  /-- The pool is all of the memory from `b` on. -/
  pool : ∀ p, p ∈ k.vm.freelist ↔ PageStart p ∧ b.toNat ≤ p.toNat ∧ p.toNat < 0x88000000
  behind : img.kernelImageEnd2M.toNat ≤ b.toNat ∧ b.toNat ≤ img.kernelImageEnd2M.toNat + 0x200000
  xlate : ∀ a, Mmu.xlate k.vm.pte k.kernelPagetable a = lookup (kernelMap img pss) a
  /-- `PA_TO_KVA` can be used for all memory behind the image. -/
  direct : ∀ p : Uint64, img.kernelImageEnd2M.toNat ≤ p.toNat → p.toNat < 0x88000000 →
    Mmu.xlate k.vm.pte k.kernelPagetable (PA_TO_KVA p) = some (p, dataFlags ||| PTE_V)
  tables : ∀ js p, js.length < 3 → table kindOf k.vm.pte k.kernelPagetable js = some p →
    img.kernelImageEnd2M.toNat ≤ p.toNat ∧ p.toNat < b.toNat
  shape : pss.length = NCPU ∧ ∀ ps ∈ pss, ps.length = 2
  tops : ∀ i < NCPU, k.schedKstackTop i = KERNEL_STACK_SCHED + BitVec.ofNat 64 (16384 * i + 8192)
  nodup : pss.flatten.Nodup
  kstack : ∀ p ∈ pss.flatten, (img.kernelImageEnd2M.toNat ≤ p.toNat ∧ p.toNat < b.toNat) ∧
    ∀ js, js.length < 3 → table kindOf k.vm.pte k.kernelPagetable js ≠ some p

/-- `kpgmgrinit` puts the pool into the free list. -/
theorem KvmInited.kpgmgrinit (h : KvmInited img pss b k₀ k) (hl : Linked img)
    (hlist : k₀.vm.freelist = []) :
    Ends kpgmgrinit k fun _ k' => Booted img pss b k' := by
  obtain ⟨hmod, -, hlo, hhi⟩ := hl.toNat_end2M
  obtain ⟨hstart, hble, hbhi⟩ := h.pool
  have hb := hstart
  rw [PageStart] at hb
  have hsize := h.poolSize
  have hbase : k.vm.kpageAllocatorBase.toNat = b.toNat + 0xffffffc000000000 := by
    rw [h.poolBase, toNat_PA_TO_KVA (by omega)]
  set n := k.vm.kpageAllocatorSize.toNat / 4096 with hn
  have hpages : 4096 * n = k.vm.kpageAllocatorSize.toNat := by omega
  have hend : k.vm.kpageAllocatorBase + k.vm.kpageAllocatorSize = PA_TO_KVA
      (b + BitVec.ofNat 64 (4096 * n)) := by
    rw [hpages, BitVec.ofNat_toNat, BitVec.setWidth_eq, h.poolBase, PA_TO_KVA, PA_TO_KVA]
    grind
  have hassert {k : Kvm} {x : Uint64} (hx : PageStart x) : kvmAssert (PGALIGNED x) k = some (⟨⟩,
      k) := by
    rw [kvmAssert, if_pos (PGALIGNED_of hx)]
    rfl
  refine .get_bind (.bind_of_eq (hassert ?_) (.bind_of_eq (hassert ?_) ?_))
  · rw [PageStart]
    omega
  · rw [hend, PageStart, toNat_PA_TO_KVA (by rw [toNat_poolPage] <;> omega),
      toNat_poolPage (by omega)]
    omega
  obtain ⟨_, vm', hrun, hlist', hpte, hstatic⟩ :=
    kpgmgrLoop_frees hstart (by omega) n k.vm h.poolBase hpages.le (by omega)
  rw [hend]
  refine .bind_of_eq (t := { k with vm := vm' }) (a := ⟨⟩) ?_ (.modify_bind (.pure ?_))
  · rw [onMemory, hrun]
    rfl
  rw [h.list, hlist, List.append_nil] at hlist'
  set k' : Kvm := { k with vm := vm', kallocInited := true } with hk'
  have hfresh : k'.fresh = k'.vm.freelist := rfl
  have hlist'' : k'.vm.freelist = pagesFrom b n := hlist'
  have hpool (p : Uint64) : p ∈ k'.vm.freelist ↔ PageStart p ∧ b.toNat ≤ p.toNat ∧
      p.toNat < 0x88000000 := by
    rw [hlist'', mem_pagesFrom hstart (by omega),
      show b.toNat + 4096 * n = 0x88000000 by omega]
  have hpte' : k'.vm.pte = k.vm.pte := hpte
  have hxlate (a : Uint64) : Mmu.xlate k'.vm.pte k'.kernelPagetable a = Mmu.xlate k.vm.pte
      k.kernelPagetable a := by
    rw [hpte']
  refine ⟨⟨?_, ?_, fun p hp js hjs ht => ?_,
    ⟨?_, fun p hp => ?_, fun hno => absurd hno (by simp [hk'])⟩⟩,
    (h.tables [] _ (by decide) rfl).1, ⟨?_, fun p hp => ?_⟩, hpool, ⟨hble, hbhi⟩, fun a =>
      (hxlate a).trans (h.xlate a), fun p hp hp' => (hxlate _).trans (h.direct hl hp hp'),
    fun js p hjs ht => ?_, h.shape, h.tops, h.nodup, fun p hp =>
      ⟨(h.kstack p hp).1.2, fun js hjs => ?_⟩⟩
  · rw [hpte']
    exact h.apart
  · rw [hpte']
    exact h.entries
  · have hin := (hpool p).1 (hfresh ▸ hp)
    rw [hpte'] at ht
    have := (h.tables js p hjs ht).2
    omega
  · rw [hfresh, hlist'']
    exact nodup_pagesFrom (by omega)
  · have hin := (hpool p).1 (hfresh ▸ hp)
    refine ⟨hin.1, ?_, by omega⟩
    rintro rfl
    have hzero : (0 : Uint64).toNat = 0 := rfl
    omega
  · rw [hlist'']
    exact nodup_pagesFrom (by omega)
  · obtain ⟨hpstart, hplo, hphi⟩ := (hpool p).1 hp
    have hkva := toNat_PA_TO_KVA (p := p) (by omega)
    have hstop : (PA_TO_KVA (b + BitVec.ofNat 64 (4096 * n))).toNat = 0xffffffc088000000 := by
      rw [toNat_PA_TO_KVA (by rw [toNat_poolPage] <;> omega), toNat_poolPage (by omega)]
      omega
    refine ⟨hpstart, ?_, ?_, ?_⟩
    · rintro rfl
      have hzero : (0 : Uint64).toNat = 0 := rfl
      omega
    · show vm'.kpageAllocatorBase ≤ PA_TO_KVA p
      rw [hstatic.base, BitVec.le_def]
      omega
    · show PA_TO_KVA p < vm'.kpageAllocatorBase + vm'.kpageAllocatorSize
      rw [hstatic.base, hstatic.size, hend, BitVec.lt_def]
      omega
  · rw [hpte'] at ht
    exact (h.tables js p hjs ht).2
  · rw [hpte']
    exact (h.kstack p hp).2 js hjs

/-- The boot processor gets to the end of `kpgmgrinit`. -/
theorem boot_ends (hl : Linked img) (hboot : k.kallocInited = false) (hlist : k.vm.freelist = []) :
    Ends (do kvmInit img; kpgmgrinit) k fun _ k' => ∃ pss b, Booted img pss b k' := by
  refine .bind (kvmInit_inited hl hboot) fun _ k₁ h₁ => ?_
  obtain ⟨pss, b, h₁⟩ := h₁
  exact (h₁.kpgmgrinit hl hlist).mono fun _ k' h => ⟨pss, b, h⟩

/-! ## Code and data -/

/-- Where code and data are in physical memory: code lies between the beginning of the image and
its constants, and what can be written lies before or behind that. -/
theorem Linked.code_data (hl : Linked img) (hlen : pss.length = NCPU)
    (htwo : ∀ ps ∈ pss, ps.length = 2)
    (hkstack : ∀ p ∈ pss.flatten, img.kernelImageEnd2M.toNat ≤ p.toNat ∧ p.toNat < 0x88000000)
    {r : Region}
    (hr : r ∈ kernelMap img pss) : r.pa.toNat + r.sz.toNat < 2 ^ 64 ∧
      (r.flags &&& PTE_X ≠ 0 → 0x80200000 ≤ r.pa.toNat ∧ r.pa.toNat + r.sz.toNat ≤
        (KIVA_TO_PA img.sRodata).toNat) ∧
      (r.flags &&& PTE_W ≠ 0 → (KIVA_TO_PA img.sRodata).toNat ≤ r.pa.toNat ∨
        r.pa.toNat + r.sz.toNat ≤ 0x80200000) := by
  obtain ⟨-, hbss, hlo, hhi⟩ := hl.toNat_end2M
  obtain ⟨htext, hrodata, hdata, horder⟩ := hl.sections
  have hsched : KERNEL_STACK_SCHED.toNat = 0xffffffffff000000 := by decide
  have hsro := toNat_KIVA_TO_PA (x := img.sRodata) (by omega)
  have hva : img.rodata.va.toNat = img.sRodata.toNat := congrArg BitVec.toNat hrodata.1
  have hvd : img.data.va.toNat = img.sData.toNat := congrArg BitVec.toNat hdata.1
  have hdataX : dataFlags &&& PTE_X = 0 := by decide
  rw [kernelMap, List.mem_append, List.mem_append, List.mem_singleton] at hr
  rcases hr with (hr | hr) | rfl
  · simp only [List.mem_cons, List.not_mem_nil, or_false] at hr
    rcases hr with rfl | rfl | rfl | rfl | rfl | rfl
    · have hpa : img.text.pa.toNat = img.text.va.toNat - 0xffffffff00000000 :=
        toNat_KIVA_TO_PA (x := img.text.va) (by omega)
      exact ⟨by omega, fun _ => by omega,
        fun hW => absurd (show textFlags &&& PTE_W = 0 by decide) hW⟩
    · have hpa : img.rodata.pa.toNat = img.rodata.va.toNat - 0xffffffff00000000 :=
        toNat_KIVA_TO_PA (x := img.rodata.va) (by omega)
      exact ⟨by omega, fun hX => absurd (show rodataFlags &&& PTE_X = 0 by decide) hX,
        fun hW => absurd (show rodataFlags &&& PTE_W = 0 by decide) hW⟩
    · have hpa : img.data.pa.toNat = img.data.va.toNat - 0xffffffff00000000 :=
        toNat_KIVA_TO_PA (x := img.data.va) (by omega)
      exact ⟨by omega, fun hX => absurd hdataX hX, fun _ => by omega⟩
    · have hpa : img.trampolinePage.pa.toNat = img.trampoline.toNat - 0xffffffff00000000 :=
        toNat_KIVA_TO_PA (by omega)
      have hsz : img.trampolinePage.sz.toNat = 4096 := rfl
      exact ⟨by omega, fun _ => by omega,
        fun hW => absurd (show textFlags &&& PTE_W = 0 by decide) hW⟩
    · exact ⟨by decide, fun hX => absurd hdataX hX, fun _ => .inr (by decide)⟩
    · exact ⟨by decide, fun hX => absurd hdataX hX, fun _ => .inr (by decide)⟩
  · have hncpu : pss.length = 4 := hlen
    obtain ⟨-, -, hsz, hflags, hpa⟩ := mem_cpuRegions htwo (by rw [hsched]; omega) hr
    have hplace := hkstack r.pa hpa
    have hpg : r.sz.toNat = 4096 := by rw [hsz]; rfl
    rw [hflags]
    exact ⟨by omega, fun hX => absurd hdataX hX, fun _ => by omega⟩
  · obtain ⟨-, -, -, hdsz⟩ := hl.direct_ok
    have hpa : img.direct.pa = img.kernelImageEnd2M := rfl
    rw [hpa]
    exact ⟨by omega, fun hX => absurd hdataX hX, fun _ => by omega⟩

theorem Booted.code_apart (h : Booted img pss b k) (hl : Linked img) {a a' p p' f f' : Uint64}
    (hcode : Mmu.xlate k.vm.pte k.kernelPagetable a = some (p, f)) (hX : f &&& PTE_X ≠ 0)
    (hdata : Mmu.xlate k.vm.pte k.kernelPagetable a' = some (p', f')) (hW : f' &&& PTE_W ≠ 0) :
    PGROUNDDOWN p ≠ PGROUNDDOWN p' := by
  have hb := h.behind
  have hflag {f m : Uint64} (hm : PTE_V &&& m = 0) (h : (f ||| PTE_V) &&& m ≠ 0) :
      f &&& m ≠ 0 := by
    intro hzero
    rw [BitVec.and_or_distrib_right, hm, hzero] at h
    exact h rfl
  obtain ⟨-, -, -, hhi⟩ := hl.toNat_end2M
  have hcd {r : Region} (hr : r ∈ kernelMap img pss) := hl.code_data h.shape.1 h.shape.2
    (fun q hq => ⟨(h.kstack q hq).1.1, by have := (h.kstack q hq).1.2; omega⟩) hr
  rw [h.xlate] at hcode hdata
  obtain ⟨r, hr, hin, heq⟩ := mem_of_lookup hcode
  obtain ⟨r', hr', hin', heq'⟩ := mem_of_lookup hdata
  obtain ⟨rfl, rfl⟩ := Prod.mk.injEq .. ▸ heq
  obtain ⟨rfl, rfl⟩ := Prod.mk.injEq .. ▸ heq'
  obtain ⟨hfit, hexec, -⟩ := hcd hr
  obtain ⟨hfit', -, hwrite⟩ := hcd hr'
  have hc := hexec (hflag (by decide) hX)
  have hd := hwrite (hflag (by decide) hW)
  have hro := hl.sRodata.1
  have hsro := toNat_KIVA_TO_PA (x := img.sRodata) (by have := hl.sections.order; omega)
  rw [PageStart] at hro
  rw [BitVec.lt_def] at hin hin'
  intro hsame
  have hnat := congrArg BitVec.toNat hsame
  rw [toNat_PGROUNDDOWN, toNat_PGROUNDDOWN, BitVec.toNat_add, BitVec.toNat_add] at hnat
  omega

/-! ## After boot -/

/-- **The kernel boots**: from any contents of the memory, `kvm_init` and `kpgmgrinit` build the
kernel's address space and a pool of all memory that they have not used. -/
theorem kernel_boots (hl : Linked img) (hboot : k.kallocInited = false)
    (hlist : k.vm.freelist = []) :
    Ends (do kvmInit img; kpgmgrinit) k fun _ k' => ∃ pss b, Booted img pss b k' :=
      boot_ends hl hboot hlist

/-- An image of 12 pages. -/
def smallImage : KernelImage where
  sText := KERNEL_VIRT_BASE
  eText := 0xffffffff80203000
  trampoline := 0xffffffff80203000
  sRodata := 0xffffffff80204000
  eRodata := 0xffffffff80206000
  sData := 0xffffffff80206000
  eBss := 0xffffffff8020c000
  kernelImageEnd2M := 0x80400000

theorem linked_smallImage : Linked smallImage :=
  ⟨rfl, by decide, by decide, by decide, by decide, by decide, by decide, by decide, by decide⟩

/-- The kernel before boot. -/
def bootKvm : Kvm := { emptyKvm with vm := { initVm with freelist := [] }, kallocInited := false }

theorem kernel_boots_smallImage :
    Ends (do kvmInit smallImage; kpgmgrinit) bootKvm fun _ k' => ∃ pss b,
      Booted smallImage pss b k' :=
  kernel_boots linked_smallImage rfl rfl

/-- **When `kpgmgrinit` returns no page of code can be written**, through whatever address of the
kernel. -/
theorem no_writable_code (hl : Linked img) (hboot : k.kallocInited = false)
    (hlist : k.vm.freelist = []) :
    Ends (do kvmInit img; kpgmgrinit) k fun _ k' => ∀ a a' p p' f f',
      Mmu.xlate k'.vm.pte k'.kernelPagetable a = some (p, f) → f &&& PTE_X ≠ 0 →
      Mmu.xlate k'.vm.pte k'.kernelPagetable a' = some (p', f') → f' &&& PTE_W ≠ 0 →
      PGROUNDDOWN p ≠ PGROUNDDOWN p' := by
  refine (boot_ends hl hboot hlist).mono fun _ k' hbooted => ?_
  obtain ⟨pss, b, h⟩ := hbooted
  intro a a' p p' f f' hcode hX hdata hW
  exact h.code_apart hl hcode hX hdata hW

theorem no_writable_code_smallImage : Ends (do kvmInit smallImage; kpgmgrinit) bootKvm fun _ k' =>
    ∀ a a' p p' f f',
    Mmu.xlate k'.vm.pte k'.kernelPagetable a = some (p, f) → f &&& PTE_X ≠ 0 →
    Mmu.xlate k'.vm.pte k'.kernelPagetable a' = some (p', f') → f' &&& PTE_W ≠ 0 →
    PGROUNDDOWN p ≠ PGROUNDDOWN p' :=
  no_writable_code linked_smallImage rfl rfl

end SignalOS
