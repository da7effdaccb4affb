import SignalOS.Vm.Booted

/-!
# The stacks of the schedulers

* `lookup_cpuRegions` — the map of the stacks in terms of the offset of an address.
* `stack_guarded` — **a scheduler that runs out of its stack faults**: below each stack a stack's
  size is not mapped when `kpgmgrinit` returns.
-/

namespace SignalOS

open Partial

variable {img : KernelImage} {pss : List (List Uint64)} {ps : List Uint64} {b s a : Uint64}
  {k₀ k : Kvm}

/-- A stack in terms of the offset. -/
theorem lookup_stackRegions (hfit : s.toNat + 4096 * ps.length < 2 ^ 64) :
    lookup (stackRegions s ps) a =
    ps[(a - s).toNat / 4096]?.map fun p => (p + BitVec.ofNat 64 ((a - s).toNat % 4096),
      dataFlags ||| PTE_V) := by
  have hpg : PGSIZE.toNat = 4096 := rfl
  induction ps generalizing s with
  | nil => rfl
  | cons p ps ih =>
    rw [List.length_cons] at hfit
    have hnext : (s + PGSIZE).toNat = s.toNat + 4096 := by
      rw [BitVec.toNat_add, hpg]
      omega
    rw [stackRegions, lookup]
    by_cases hin : a - s < PGSIZE
    · rw [if_pos hin]
      rw [BitVec.lt_def, hpg] at hin
      rw [Nat.div_eq_of_lt hin, Nat.mod_eq_of_lt hin, BitVec.ofNat_toNat, BitVec.setWidth_eq]
      rfl
    · rw [if_neg hin, ih (by omega)]
      rw [BitVec.lt_def, hpg] at hin
      have hoff : (a - (s + PGSIZE)).toNat = (a - s).toNat - 4096 := by
        rw [show a - (s + PGSIZE) = a - s - PGSIZE by grind, BitVec.toNat_sub, hpg]
        have := (a - s).isLt
        omega
      obtain ⟨m, hm⟩ : ∃ m, (a - s).toNat / 4096 = m + 1 := ⟨(a - s).toNat / 4096 - 1, by omega⟩
      rw [hoff, hm, show ((a - s).toNat - 4096) / 4096 = m by omega,
        show ((a - s).toNat - 4096) % 4096 =
        (a - s).toNat % 4096 by omega, List.getElem?_cons_succ]

/-- **The stacks in terms of the offset**: half of every 16 KiB is mapped. -/
theorem lookup_cpuRegions (htwo : ∀ ps ∈ pss, ps.length = 2)
    (hfit : s.toNat + 16384 * pss.length < 2 ^ 64) :
    lookup (cpuRegions s pss) a = pss[(a - s).toNat / 16384]?.bind fun ps =>
      ps[(a - s).toNat % 16384 / 4096]?.map fun p =>
        (p + BitVec.ofNat 64 ((a - s).toNat % 4096), dataFlags ||| PTE_V) := by
  have hsize : (2 * KERNEL_STACK_SIZE).toNat = 16384 := by decide
  induction pss generalizing s with
  | nil => rfl
  | cons ps pss ih =>
    have hlen := htwo ps List.mem_cons_self
    rw [List.length_cons] at hfit
    have hnext : (s + 2 * KERNEL_STACK_SIZE).toNat = s.toNat + 16384 := by
      rw [BitVec.toNat_add, hsize]
      omega
    rw [cpuRegions, lookup_append, lookup_stackRegions (by omega),
      ih (fun qs hqs => htwo qs (List.mem_cons_of_mem _ hqs))
      (by omega)]
    have hsub : a - (s + 2 * KERNEL_STACK_SIZE) = a - s - 2 * KERNEL_STACK_SIZE := by grind
    by_cases hin : (a - s).toNat < 16384
    · have hbehind : pss[(a - (s + 2 * KERNEL_STACK_SIZE)).toNat / 16384]? = none := by
        refine List.getElem?_eq_none ?_
        rw [hsub, BitVec.toNat_sub, hsize]
        omega
      rw [hbehind, Option.bind_none, Option.or_none, Nat.div_eq_of_lt hin, Nat.mod_eq_of_lt hin]
      rfl
    · have hoff : (a - (s + 2 * KERNEL_STACK_SIZE)).toNat = (a - s).toNat - 16384 := by
        rw [hsub, BitVec.toNat_sub, hsize]
        have := (a - s).isLt
        omega
      have hbehind : ps[(a - s).toNat / 4096]? = none := List.getElem?_eq_none (by omega)
      obtain ⟨m, hm⟩ : ∃ m, (a - s).toNat / 16384 = m + 1 := ⟨(a - s).toNat / 16384 - 1, by omega⟩
      rw [hbehind, Option.map_none, Option.none_or, hoff, hm,
        show ((a - s).toNat - 16384) / 16384 = m by omega,
        show ((a - s).toNat - 16384) % 16384 = (a - s).toNat % 16384 by omega,
        show ((a - s).toNat - 16384) % 4096 = (a - s).toNat % 4096 by omega,
          List.getElem?_cons_succ]

/-- What is mapped around the stacks is mapped for them. -/
theorem Booted.lookup_stacks (h : Booted img pss b k) (hl : Linked img)
    (hlo : 0xffffffffff000000 - 0x2000 ≤ a.toNat) :
    Mmu.xlate k.vm.pte k.kernelPagetable a = lookup (cpuRegions KERNEL_STACK_SCHED pss) a := by
  obtain ⟨-, -, hend, hend'⟩ := hl.toNat_end2M
  obtain ⟨-, -, hdva, hdsz⟩ := hl.direct_ok
  have hbefore : lookup [img.text, img.rodata, img.data, img.trampolinePage, plicRegion,
      uartRegion] a = none := by
    refine lookup_none fun r hr => ?_
    have := hl.static_bounds hr
    have := a.isLt
    rw [BitVec.lt_def, BitVec.toNat_sub]
    omega
  have hdirect : lookup [img.direct] a = none := by
    refine lookup_none fun r hr => ?_
    have := a.isLt
    rw [List.mem_singleton.1 hr, BitVec.lt_def, BitVec.toNat_sub, hdva, hdsz]
    omega
  rw [h.xlate, kernelMap, lookup_append, lookup_append, hbefore, hdirect, Option.none_or,
    Option.or_none]

/-- **When `kpgmgrinit` returns a stack's size is not mapped below each stack**, so that a
scheduler that runs out of its stack faults. -/
theorem stack_guarded (hl : Linked img) (hboot : k.kallocInited = false)
    (hlist : k.vm.freelist = []) :
    Ends (do kvmInit img; kpgmgrinit) k fun _ k' => ∀ i < NCPU, ∀ o, 0 < o →
      (o ≤ KERNEL_STACK_SIZE.toNat → ∃ p, Mmu.xlate k'.vm.pte k'.kernelPagetable
        (k'.schedKstackTop i - BitVec.ofNat 64 o) = some (p, dataFlags ||| PTE_V)) ∧
      (KERNEL_STACK_SIZE.toNat < o → o ≤ 2 * KERNEL_STACK_SIZE.toNat →
        Mmu.xlate k'.vm.pte k'.kernelPagetable
        (k'.schedKstackTop i - BitVec.ofNat 64 o) = none) := by
  have hstack : KERNEL_STACK_SIZE.toNat = 8192 := by decide
  have hsched : KERNEL_STACK_SCHED.toNat = 0xffffffffff000000 := by decide
  refine (boot_ends hl hboot hlist).mono fun _ k' hbooted => ?_
  obtain ⟨pss, b, h⟩ := hbooted
  obtain ⟨hlen, htwo⟩ := h.shape
  rw [NCPU] at hlen
  intro i hi o hpos
  rw [NCPU] at hi
  rw [hstack, h.tops i hi]
  set a := KERNEL_STACK_SCHED + BitVec.ofNat 64 (16384 * i + 8192) - BitVec.ofNat 64 o with ha
  -- the addresses below the first stack lie before all stacks
  have hnat (ho : o ≤ 16384) : a.toNat = 0xffffffffff000000 + 16384 * i + 8192 - o := by
    rw [ha, BitVec.toNat_sub, BitVec.toNat_add, BitVec.toNat_ofNat, BitVec.toNat_ofNat, hsched]
    omega
  have hoff (ho : o ≤ 16384) : (a - KERNEL_STACK_SCHED).toNat =
      if o ≤ 16384 * i + 8192 then 16384 * i + 8192 - o else 2 ^ 64 + 16384 * i + 8192 - o := by
    rw [BitVec.toNat_sub, hnat ho, hsched]
    split <;> omega
  have hmap (ho : o ≤ 16384) := @Booted.lookup_stacks _ _ _ a _ h hl (by rw [hnat ho]; omega)
  refine ⟨fun ho => ?_, fun ho ho' => ?_⟩
  · rw [hmap (by omega), lookup_cpuRegions htwo (by rw [hsched, hlen]; omega), hoff (by omega),
      if_pos (by omega)]
    obtain ⟨ps, hps⟩ : ∃ ps, pss[i]? = some ps := ⟨_, List.getElem?_eq_getElem (by omega)⟩
    have hdiv : (16384 * i + 8192 - o) / 16384 = i := by omega
    have hps2 : (16384 * i + 8192 - o) % 16384 / 4096 < ps.length := by
      rw [htwo ps (List.mem_of_getElem? hps)]
      omega
    rw [hdiv, hps, Option.bind_some, List.getElem?_eq_getElem hps2]
    exact ⟨_, rfl⟩
  · rw [hmap (by omega), lookup_cpuRegions htwo (by rw [hsched, hlen]; omega), hoff (by omega)]
    rw [Option.bind_eq_none_iff]
    intro ps hps
    rw [Option.map_eq_none_iff, List.getElem?_eq_none_iff, htwo ps (List.mem_of_getElem? hps)]
    split
    · omega
    · omega

theorem stack_guarded_smallImage : Ends (do kvmInit smallImage; kpgmgrinit) bootKvm fun _ k' =>
    ∀ i < NCPU, ∀ o, 0 < o →
    (o ≤ KERNEL_STACK_SIZE.toNat → ∃ p, Mmu.xlate k'.vm.pte k'.kernelPagetable
      (k'.schedKstackTop i - BitVec.ofNat 64 o) = some (p, dataFlags ||| PTE_V)) ∧
    (KERNEL_STACK_SIZE.toNat < o → o ≤ 2 * KERNEL_STACK_SIZE.toNat →
      Mmu.xlate k'.vm.pte k'.kernelPagetable
      (k'.schedKstackTop i - BitVec.ofNat 64 o) = none) :=
  stack_guarded linked_smallImage rfl rfl

end SignalOS
