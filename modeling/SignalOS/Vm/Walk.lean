import SignalOS.Vm.Memory

/-!
# The Sv39 page-table walk

`walk`, `walkaddr` and `useraddr` of `vm.c`.

* `walk` — the slot of an address, creating missing page tables when asked to.
* `slotOf` — the slot the hardware translation reads; `walk_noalloc` says that a
  walk without allocation returns it and changes nothing.
* `walkaddr` — the physical page of a user page, `0` when there is none.  It
  depends on the entries alone (`walkaddr_congr`), yields page starts
  (`pageStart_walkaddr`) and rejects addresses above `MAXVA`
  (`walkaddr_of_not_user`).
* `userPa`, `userByte` — the physical address behind a user address and the byte
  user memory holds there.
-/

namespace SignalOS

/-- `struct vma`, with the address of the object. -/
structure Vma where
  addr : Uint64
  vmStart : Uint64
  vmEnd : Uint64
  pteFlags : Uint64
  deriving DecidableEq

/-- `struct mm`, with the address of the object.  `pgt` is the physical address of
the root page table. -/
structure Mm where
  addr : Uint64
  pgt : Uint64
  vma : List Vma
  refcnt : Int
  deriving DecidableEq

/-- `pte_t *`: an entry of a page-table page. -/
abbrev PteRef := Uint64 × Uint64

/-- One turn of the loop of `walk`: the page table below `pagetable` on the way to `va`. -/
def walkLevel (level : Nat) (va : Uint64) (alloc : Bool) (pagetable : Uint64) :
    VmM (Option Uint64) := do
  let pte := (← get).pte pagetable (PX level va)
  if pte &&& PTE_V ≠ 0 then
    return some (PTE2PA pte)
  else if !alloc then
    return none
  else
    let pa ← kallocpage
    if pa = 0 then
      return none
    else
      modify fun vm => (vm.zeroTable pa).setPte pagetable (PX level va) (PA2PTE pa ||| PTE_V)
      return some pa

/-- `walk(mm, va, alloc)`: the level-0 entry of `va`, `none` for `NULL`. -/
def walk (mm : Mm) (va : Uint64) (alloc : Bool) : VmM (Option PteRef) := do
  if !IS_USER_VA va then
    return none
  else
    match ← walkLevel 2 va alloc mm.pgt with
    | none => return none
    | some level1 =>
      match ← walkLevel 1 va alloc level1 with
      | none => return none
      | some level0 => return some (level0, PX 0 va)

/-- The page table an entry points to, if it is valid. -/
def nextTable (pte : Uint64) : Option Uint64 :=
  if pte &&& PTE_V ≠ 0 then some (PTE2PA pte) else none

/-- The slot that the translation of `va` reads, if all tables above it exist. -/
def slotOf (pte : Uint64 → Uint64 → Uint64) (pgt va : Uint64) : Option PteRef :=
  (nextTable (pte pgt (PX 2 va))).bind fun level1 =>
    (nextTable (pte level1 (PX 1 va))).map fun level0 => (level0, PX 0 va)

theorem walkLevel_noalloc (level : Nat) (va pagetable : Uint64) (vm : Vm) :
    walkLevel level va false pagetable vm = some (nextTable (vm.pte pagetable (PX level va)),
      vm) := by
  have hread : walkLevel level va false pagetable vm =
      (if vm.pte pagetable (PX level va) &&& PTE_V ≠ 0 then
        (pure (some (PTE2PA (vm.pte pagetable (PX level va)))) : VmM (Option Uint64))
      else pure none) vm := rfl
  rw [hread, nextTable]
  split <;> rfl

/-- **A walk without allocation** changes nothing and finds the slot of the translation. -/
theorem walk_noalloc {mm : Mm} {va : Uint64} (hva : IS_USER_VA va = true) (vm : Vm) :
    walk mm va false vm = some (slotOf vm.pte mm.pgt va, vm) := by
  have hread : walk mm va false vm = (do
      match ← walkLevel 2 va false mm.pgt with
      | none => return none
      | some level1 =>
        match ← walkLevel 1 va false level1 with
        | none => return none
        | some level0 => return some (level0, PX 0 va) : VmM (Option PteRef)) vm := by
    rw [walk, hva]
    rfl
  rw [hread, slotOf]
  simp only [bind, StateT.bind, walkLevel_noalloc, Option.bind_some]
  cases nextTable (vm.pte mm.pgt (PX 2 va)) with
  | none => rfl
  | some level1 =>
    simp only [StateT.bind, walkLevel_noalloc, Option.bind_eq_bind, Option.bind_some]
    cases nextTable (vm.pte level1 (PX 1 va)) <;> rfl

/-- `walkaddr(mm, va)`: the physical page of a page-aligned user address, or `0`.
Its callers all round the address down first, so its assertion never fails. -/
def walkaddr (vm : Vm) (mm : Mm) (va : Uint64) : Uint64 :=
  if !IS_USER_VA va then 0
  else
    match walk mm va false vm with
    | some (some (pagetable, i), _) =>
      let pte := vm.pte pagetable i
      if pte &&& PTE_V = 0 then 0
      else if pte &&& PTE_U = 0 then 0
      else PTE2PA pte
    | _ => 0

/-- `useraddr(mm, va)`. -/
def useraddr (vm : Vm) (mm : Mm) (va : Uint64) : Uint64 :=
  let page := walkaddr vm mm (PGROUNDDOWN va)
  if page = 0 then 0 else page ||| (va &&& 0xFFF)

theorem walkaddr_of_not_user {vm : Vm} {mm : Mm} {va : Uint64} (h : IS_USER_VA va = false) :
    walkaddr vm mm va = 0 := by
  simp [walkaddr, h]

/-- The translation of a user page in terms of its slot. -/
theorem walkaddr_eq {vm : Vm} {mm : Mm} {va : Uint64} (h : IS_USER_VA va = true) :
    walkaddr vm mm va = match slotOf vm.pte mm.pgt va with
      | none => 0
      | some (pagetable, i) =>
        if vm.pte pagetable i &&& PTE_V = 0 then 0
        else if vm.pte pagetable i &&& PTE_U = 0 then 0
        else PTE2PA (vm.pte pagetable i) := by
  rw [walkaddr, walk_noalloc h]
  simp only [h, Bool.not_true, Bool.false_eq_true, if_false]
  cases slotOf vm.pte mm.pgt va <;> rfl

/-- The translation depends on the entries and the root alone. -/
theorem walkaddr_congr {vm vm' : Vm} {mm : Mm} (h : vm'.pte = vm.pte) (va : Uint64) :
    walkaddr vm' mm va = walkaddr vm mm va := by
  cases hva : IS_USER_VA va with
  | false => rw [walkaddr_of_not_user hva, walkaddr_of_not_user hva]
  | true => rw [walkaddr_eq hva, walkaddr_eq hva, h]

theorem pageStart_walkaddr (vm : Vm) (mm : Mm) (va : Uint64) : PageStart (walkaddr vm mm va) := by
  have hzero : PageStart 0 := rfl
  cases hva : IS_USER_VA va with
  | false => rw [walkaddr_of_not_user hva]; exact hzero
  | true =>
    rw [walkaddr_eq hva]
    cases slotOf vm.pte mm.pgt va with
    | none => exact hzero
    | some slot =>
      dsimp only
      split
      · exact hzero
      · split
        · exact hzero
        · exact pageStart_PTE2PA _

/-! ## User memory -/

/-- The physical address behind a user address, `none` where no user page is mapped. -/
def userPa (vm : Vm) (mm : Mm) (va : Uint64) : Option Uint64 :=
  let page := walkaddr vm mm (PGROUNDDOWN va)
  if page = 0 then none else some (page + (va - PGROUNDDOWN va))

/-- The byte user memory holds at `va`, `none` where no user page is mapped. -/
def userByte (vm : Vm) (mm : Mm) (va : Uint64) : Option Byte :=
  (userPa vm mm va).map vm.byte

/-- User addresses inside one page. -/
theorem userPa_in_page {vm : Vm} {mm : Mm} {p : Uint64} (hp : PageStart p) {i : Nat}
    (hi : i < 4096) :
    userPa vm mm (p + BitVec.ofNat 64 i) =
      if walkaddr vm mm p = 0 then none
      else some (walkaddr vm mm p + BitVec.ofNat 64 i) := by
  have hoff : p + BitVec.ofNat 64 i - p = BitVec.ofNat 64 i := by
    rw [BitVec.add_comm, BitVec.add_sub_cancel]
  simp only [userPa, PGROUNDDOWN_add hp hi, hoff]

/-- User memory inside one page. -/
theorem userByte_in_page {vm : Vm} {mm : Mm} {p : Uint64} (hp : PageStart p) {i : Nat}
    (hi : i < 4096) :
    userByte vm mm (p + BitVec.ofNat 64 i) =
      if walkaddr vm mm p = 0 then none
      else some (vm.byte (walkaddr vm mm p + BitVec.ofNat 64 i)) := by
  rw [userByte, userPa_in_page hp hi]
  split <;> rfl

/-- A store to the page behind a user page is read back through it. -/
theorem userByte_store_in_page {vm : Vm} {mm : Mm} {p : Uint64} {src : List Byte}
    (hp : PageStart p) (hmap : walkaddr vm mm p ≠ 0) (hfit : src.length ≤ 4096) {i : Nat}
    (hi : i < src.length) :
    userByte (vm.store (walkaddr vm mm p) src) mm (p + BitVec.ofNat 64 i) = some src[i] := by
  rw [userByte_in_page hp (by omega), walkaddr_congr (Vm.store_pte _ _ _), if_neg hmap,
    Vm.store_byte, memmove_offset hi (by omega)]

theorem userPa_congr {vm vm' : Vm} {mm : Mm} (h : vm'.pte = vm.pte) (va : Uint64) :
    userPa vm' mm va = userPa vm mm va := by
  simp only [userPa, walkaddr_congr h]

/-- Where different user pages have different frames, different user addresses have different
bytes. -/
theorem userPa_inj {vm : Vm} {mm : Mm}
    (hpages : ∀ va va', walkaddr vm mm (PGROUNDDOWN va) ≠ 0 →
      walkaddr vm mm (PGROUNDDOWN va) = walkaddr vm mm (PGROUNDDOWN va') →
      PGROUNDDOWN va = PGROUNDDOWN va') {va va' a : Uint64}
    (hva : userPa vm mm va = some a) (hva' : userPa vm mm va' = some a) : va = va' := by
  obtain ⟨i, hi, hi'⟩ := exists_offset va
  obtain ⟨j, hj, hj'⟩ := exists_offset va'
  rw [hi', userPa_in_page (pageStart_PGROUNDDOWN va) hi] at hva
  rw [hj', userPa_in_page (pageStart_PGROUNDDOWN va') hj] at hva'
  split at hva
  · exact absurd hva (by simp)
  split at hva'
  · exact absurd hva' (by simp)
  rename_i hne _
  rw [Option.some.injEq] at hva hva'
  have hframe := pageStart_walkaddr vm mm (PGROUNDDOWN va)
  have hframe' := pageStart_walkaddr vm mm (PGROUNDDOWN va')
  have hsame : walkaddr vm mm (PGROUNDDOWN va) = walkaddr vm mm (PGROUNDDOWN va') := by
    rw [← PGROUNDDOWN_add hframe hi, ← PGROUNDDOWN_add hframe' hj, hva, hva']
  have hpage := hpages va va' hne hsame
  have hoff : BitVec.ofNat 64 i = BitVec.ofNat 64 j := by
    rw [← hva', hsame] at hva
    exact (BitVec.add_right_inj _).1 hva
  rw [hi', hj', hpage, hoff]

end SignalOS
