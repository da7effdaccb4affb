import SignalOS.Vm.Walk

/-!
# Address spaces

The `mm` and `vma` functions of `vm.c`: building an address space, mapping and
freeing its pages, copying it for `fork` and resizing the heap.

Locks are left out, with one exception: where the C code releases a lock that it
does not hold, `release` panics, and so does the model.  Reading or writing a page
that `walkaddr` does not find goes to physical address 0, which is not mapped, so
it panics as well.
-/

namespace SignalOS

/-- The addresses of a loop `for (va = start; va < end; va += PGSIZE)`. -/
def pagesBetween (start stop : Uint64) : List Uint64 :=
  if start < stop then
    (List.range (((stop - start).toNat + 4095) / 4096)).map fun i =>
      start + BitVec.ofNat 64 (4096 * i)
  else []

/-- `*pte`. -/
def loadPte (pte : PteRef) : VmM Uint64 := do
  return (← get).pte pte.1 pte.2

/-- `*pte = e`. -/
def storePte (pte : PteRef) (e : Uint64) : VmM Unit :=
  modify fun vm => vm.setPte pte.1 pte.2 e

/-- `memset` on a page the kernel reaches through the direct mapping. -/
def setBytes (pa : Uint64) (c : Byte) (n : Uint64) : VmM Unit :=
  modify fun vm => { vm with byte := memset vm.byte pa c n }

/-- `memmove` to a page the kernel reaches through the direct mapping. -/
def storeBytes (pa : Uint64) (src : List Byte) : VmM Unit :=
  modify fun vm => vm.store pa src

/-- `PA_TO_KVA(walkaddr(mm, va))`, for an access to that page. -/
def pageOf (mm : Mm) (va : Uint64) : VmM Uint64 := do
  let pa := walkaddr (← get) mm va
  kassert (pa != 0)
  return pa

/-- `vma_check_overlap(mm, start, end, exclude)`: is the result non-zero?  `exclude` is the
address of a vma, 0 for `NULL`. -/
def vmaCheckOverlap (mm : Mm) (start stop exclude : Uint64) : Bool :=
  if start = stop then false
  else
    mm.vma.any fun vma => vma.addr != exclude &&
      ((start < vma.vmEnd && start ≥ vma.vmStart) || (stop > vma.vmStart && stop ≤ vma.vmEnd))

/-- `mm_mappageat(mm, va, pa, flags)`. -/
def mmMappageat (mm : Mm) (va pa flags : Uint64) : VmM Int := do
  if !IS_USER_VA va then
    kpanic
  else if vmaCheckOverlap mm va (va + PGSIZE) 0 then
    return -EINVAL
  else
    match ← walk mm va true with
    | none => return -EINVAL
    | some pte =>
      if (← loadPte pte) &&& PTE_V ≠ 0 then
        return -EINVAL
      else
        storePte pte (PA2PTE pa ||| flags ||| PTE_V)
        return 0

/-- `mm_create(tf)`, with `tf` the physical address of the trapframe page. -/
def mmCreate (tf : Uint64) : VmM (Option Mm) := do
  let obj ← kallocMm
  let pa ← kallocpage
  -- without a root page the lock of the new `mm` is released before it was acquired
  if pa = 0 then
    kpanic
  else
    modify fun vm => vm.zeroTable pa
    let mm : Mm := ⟨obj, pa, [], 1⟩
    if (← mmMappageat mm TRAMPOLINE (← get).trampoline (PTE_A ||| PTE_R ||| PTE_X)) < 0 then
      freeMm mm
    else if (← mmMappageat mm TRAPFRAME tf (PTE_A ||| PTE_D ||| PTE_R ||| PTE_W)) ≠ 0 then
      freeMm mm
    else
      return some mm
where
  /-- The label `free_mm`. -/
  freeMm (mm : Mm) : VmM (Option Mm) := do
    kfreepage mm.pgt
    kfreeMm mm.addr
    return none

/-- `mm_create_vma(mm)`: a vma filled with zeros. -/
def mmCreateVma : VmM Vma := do
  return ⟨← kallocVma, 0, 0, 0⟩

/-- `freevma(vma, free_phy_page)`, with `mm` its owner. -/
def freevma (mm : Mm) (vma : Vma) (freePhyPage : Bool) : VmM Unit := do
  kassert (PGALIGNED vma.vmStart && PGALIGNED vma.vmEnd)
  (pagesBetween vma.vmStart vma.vmEnd).forM fun va => do
    match ← walk mm va false with
    | none => pure ()
    | some pte =>
      let e ← loadPte pte
      if e &&& PTE_V ≠ 0 then
        if freePhyPage then kfreepage (PTE2PA e)
        storePte pte 0

/-- `mm_free_vmas(mm)`. -/
def mmFreeVmas (mm : Mm) : VmM Mm := do
  mm.vma.forM fun vma => do
    freevma mm vma true
    kfreeVma vma.addr
  return { mm with vma := [] }

/-- `freepgt(pgt)`.  An Sv39 tree has three levels of tables, since leaf entries carry
`R`, `W` or `X`; `level` bounds the recursion. -/
def freepgt : Nat → Uint64 → VmM Unit
  | 0, _ => kpanic
  | level + 1, pgt => do
    (List.range 512).forM fun i => do
      let e ← loadPte (pgt, BitVec.ofNat 64 i)
      if e &&& PTE_V ≠ 0 ∧ e &&& PTE_RWX = 0 then
        freepgt level (PTE2PA e)
        storePte (pgt, BitVec.ofNat 64 i) 0
    kfreepage pgt

/-- `mm_free(mm)`. -/
def mmFree (mm : Mm) : VmM Unit := do
  kassert (mm.refcnt > 0)
  let mm ← mmFreeVmas mm
  freepgt 3 mm.pgt
  kfreeMm mm.addr

/-- The loop of `mm_mappages` over the pages that are not mapped yet. -/
def mmMappagesLoop (mm : Mm) (vma : Vma) : List Uint64 → VmM Int
  | [] => return 0
  | va :: rest => do
    match ← walk mm va true with
    | none => return -ENOMEM
    | some pte =>
      if (← loadPte pte) &&& PTE_V ≠ 0 then
        return -EINVAL
      else
        let pa ← kallocpage
        if pa = 0 then
          return -ENOMEM
        else
          storePte pte (PA2PTE pa ||| vma.pteFlags ||| PTE_V)
          mmMappagesLoop mm vma rest

/-- `mm_mappages(vma)`, with `mm` its owner: the result and the owner afterwards. -/
def mmMappages (mm : Mm) (vma : Vma) : VmM (Int × Mm) := do
  kassert (IS_USER_VA vma.vmStart && IS_USER_VA vma.vmEnd)
  kassert (PGALIGNED vma.vmStart && PGALIGNED vma.vmEnd)
  kassert (vma.pteFlags &&& PTE_RWX != 0)
  if vmaCheckOverlap mm vma.vmStart vma.vmEnd vma.addr then
    return (-EINVAL, mm)
  else
    let ret ← mmMappagesLoop mm vma (pagesBetween vma.vmStart vma.vmEnd)
    if ret < 0 then
      freevma mm vma true
      kfreeVma vma.addr
      return (ret, mm)
    else
      return (0, { mm with vma := vma :: mm.vma })

/-- The first loop of `mm_remap`: does it get all pages it needs? -/
def mmRemapCreate (mm : Mm) (start stop pteFlags : Uint64) : List Uint64 → VmM Bool
  | [] => return true
  | va :: rest => do
    if va < start ∨ va ≥ stop then
      mmRemapCreate mm start stop pteFlags rest
    else
      match ← walk mm va true with
      | none => return false
      | some pte =>
        let e ← loadPte pte
        if e &&& PTE_V ≠ 0 then
          storePte pte (e &&& ~~~PTE_RWX ||| pteFlags)
          mmRemapCreate mm start stop pteFlags rest
        else
          let pa ← kallocpage
          if pa = 0 then
            return false
          else
            storePte pte (PA2PTE pa ||| pteFlags ||| PTE_V)
            mmRemapCreate mm start stop pteFlags rest

/-- The second loop of `mm_remap`: the mappings that leave the range are removed. -/
def mmRemapRemove (mm : Mm) (start stop : Uint64) : List Uint64 → VmM Bool
  | [] => return true
  | va :: rest => do
    if va < start ∨ va ≥ stop then
      match ← walk mm va false with
      | none => return false
      | some pte =>
        let e ← loadPte pte
        if e &&& PTE_V ≠ 0 then
          kfreepage (PTE2PA e)
          storePte pte 0
          mmRemapRemove mm start stop rest
        else
          return false
    else
      mmRemapRemove mm start stop rest

/-- The loop after the label `err` of `mm_remap`. -/
def mmRemapRestore (mm : Mm) (vma : Vma) (va : Uint64) : VmM Unit := do
  match ← walk mm va false with
  | none => kassert (va < vma.vmStart || va ≥ vma.vmEnd)
  | some pte =>
    let e ← loadPte pte
    if va < vma.vmStart ∨ va ≥ vma.vmEnd then
      if e &&& PTE_V ≠ 0 then
        kfreepage (PTE2PA e)
        storePte pte 0
    else
      kassert (e &&& PTE_V != 0)
      storePte pte (e &&& ~~~PTE_RWX ||| vma.pteFlags)

/-- `mm_remap(vma, start, end, pte_flags)`, with `mm` its owner. -/
def mmRemap (mm : Mm) (vma : Vma) (start stop pteFlags : Uint64) : VmM (Int × Mm) := do
  kassert (PGALIGNED start && PGALIGNED stop)
  kassert (pteFlags &&& PTE_RWX != 0)
  if vmaCheckOverlap mm start stop vma.addr then
    return (-EINVAL, mm)
  else
    let pages := pagesBetween (MIN start vma.vmStart) (MAX stop vma.vmEnd)
    if ← mmRemapCreate mm start stop pteFlags pages then
      if ← mmRemapRemove mm start stop pages then
        let moved := { vma with vmStart := start, vmEnd := stop, pteFlags := pteFlags }
        return (0, { mm with vma := mm.vma.map fun v => if v.addr = vma.addr then moved else v })
      else
        return (-EINVAL, mm)
    else
      pages.forM (mmRemapRestore mm vma)
      return (-ENOMEM, mm)

/-- The loop of `mm_copy`. -/
def mmCopyLoop (old new : Mm) : List Vma → VmM (Int × Mm)
  | [] => return (0, new)
  | vma :: rest => do
    let newVma := { vma with addr := (← mmCreateVma).addr }
    let (ret, new) ← mmMappages new newVma
    if ret ≠ 0 then
      return (-ENOMEM, ← mmFreeVmas new)
    else
      (pagesBetween vma.vmStart vma.vmEnd).forM fun va => do
        let paOld ← pageOf old va
        let paNew ← pageOf new va
        storeBytes paNew (readBytes (← get).byte paOld 4096)
      mmCopyLoop old new rest

/-- `mm_copy(old, new)`: the result and `new` afterwards. -/
def mmCopy (old new : Mm) : VmM (Int × Mm) := mmCopyLoop old new old.vma

/-- `mm_find_vma(mm, va)`. -/
def mmFindVma (mm : Mm) (va : Uint64) : Option Vma := mm.vma.find? fun vma => va = vma.vmStart

end SignalOS
