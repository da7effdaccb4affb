import SignalOS.Machine.Riscv

/-!
# What the hardware does with a virtual address

The Sv39 translation, with all the checks on which it raises a page fault.

* `Canonical` — addresses that are the sign extension of their low 39 bits.
* `walk`, `xlate` — the leaf entry of an address, and the physical address with the flags.
* `vpns` — the indices of an address down to a level; `vpns_inj` — **two canonical addresses have
  the same ones exactly if they lie in the same page of that level**.
-/

namespace SignalOS.Mmu

/-- Bits 63..39 are those of bit 38. -/
def Canonical (va : Uint64) : Prop := va.toNat < 2 ^ 38 ∨ 2 ^ 64 - 2 ^ 38 ≤ va.toNat

instance (va : Uint64) : Decidable (Canonical va) := inferInstanceAs (Decidable (_ ∨ _))

/-- The bytes that a leaf entry of a level maps. -/
def span (level : Nat) : Nat := 2 ^ (12 + 9 * level)

/-- An entry that faults on every level: it is not valid, it may be written but not read, or it has
reserved bits. -/
def invalid (e : Uint64) : Bool :=
  e &&& PTE_V == 0 || (e &&& PTE_R == 0 && e &&& PTE_W != 0) || e >>> 54 != 0

def isLeaf (e : Uint64) : Bool := e &&& (PTE_R ||| PTE_X) != 0

/-- The leaf entry that translates `va` from the table `t` on, with its level; none for a page
fault. -/
def walk (pte : Uint64 → Uint64 → Uint64) (va : Uint64) : Nat → Uint64 → Option (Nat × Uint64)
  | 0, t =>
    let e := pte t (PX 0 va)
    if invalid e then none
    else if isLeaf e then some (0, e) else none
  | level + 1, t =>
    let e := pte t (PX (level + 1) va)
    if invalid e then none
    else if isLeaf e then
      -- a page of more than 4 KiB has to be aligned to its size
      if (PTE2PA e).toNat % span (level + 1) = 0 then some (level + 1, e) else none
    else walk pte va level (PTE2PA e)

/-- The physical address behind `va` and the flags of its entry. -/
def xlate (pte : Uint64 → Uint64 → Uint64) (root va : Uint64) : Option (Uint64 × Uint64) :=
  if Canonical va then
    (walk pte va 2 root).map fun r => (PTE2PA r.2 + BitVec.ofNat 64 (va.toNat % span r.1),
      r.2 &&& 0x3FF)
  else none

/-! ## Indices -/

/-- The indices of an address, from the root down to a level. -/
def vpns (va : Uint64) : Nat → List Uint64
  | 0 => [PX 2 va, PX 1 va, PX 0 va]
  | 1 => [PX 2 va, PX 1 va]
  | _ => [PX 2 va]

theorem PX_inj {level : Nat} {va va' : Uint64} :
    PX level va = PX level va' ↔ va.toNat / 2 ^ (12 + 9 * level) % 512 = va'.toNat / 2 ^
      (12 + 9 * level) % 512 := by
  rw [← BitVec.toNat_inj, toNat_PX, toNat_PX]

variable {va va' : Uint64}

theorem vpns_length {level : Nat} (hlevel : level ≤ 2) : (vpns va level).length = 3 - level := by
  match level, hlevel with
  | 0, _ => rfl
  | 1, _ => rfl
  | 2, _ => rfl

theorem vpns_prefix {level : Nat} (hlevel : level ≤ 2) :
    vpns va level <+: vpns va' 0 ↔ vpns va level = vpns va' level := by
  match level, hlevel with
  | 0, _ => simp [vpns]
  | 1, _ => simp [vpns]
  | 2, _ => simp [vpns]

/-- **The indices down to a level tell the pages of the level apart.** -/
theorem vpns_inj {level : Nat} (hlevel : level ≤ 2) (h : Canonical va) (h' : Canonical va') :
    vpns va level = vpns va' level ↔ va.toNat / span level = va'.toNat / span level := by
  rw [Canonical] at h h'
  have hva := va.isLt
  have hva' := va'.isLt
  match level, hlevel with
  | 0, _ =>
    simp only [vpns, List.cons.injEq, PX_inj, and_true, span]
    omega
  | 1, _ =>
    simp only [vpns, List.cons.injEq, PX_inj, and_true, span]
    omega
  | 2, _ =>
    simp only [vpns, List.cons.injEq, PX_inj, and_true, span]
    omega

theorem span_cases {level : Nat} (hlevel : level ≤ 2) : span level = 2 ^ 12 ∨ span level = 2 ^ 21 ∨
    span level = 2 ^ 30 := by
  match level, hlevel with
  | 0, _ => exact .inl rfl
  | 1, _ => exact .inr (.inl rfl)
  | 2, _ => exact .inr (.inr rfl)

/-- A page of a level, as a range of addresses. -/
theorem sub_lt_span {level : Nat} (hlevel : level ≤ 2) (h : va.toNat % span level = 0) :
    va' - va < BitVec.ofNat 64 (span level) ↔ va.toNat / span level = va'.toNat / span level := by
  have hva := va.isLt
  have hva' := va'.isLt
  rw [BitVec.lt_def, BitVec.toNat_sub, BitVec.toNat_ofNat]
  rcases span_cases hlevel with hspan | hspan | hspan
  all_goals
    rw [hspan] at h ⊢
    omega

/-- The place of an address in its page. -/
theorem mod_span {level : Nat} (hlevel : level ≤ 2) (h : va.toNat % span level = 0)
    (hin : va.toNat / span level = va'.toNat / span level) :
    BitVec.ofNat 64 (va'.toNat % span level) = va' - va := by
  have hva := va.isLt
  have hva' := va'.isLt
  apply BitVec.eq_of_toNat_eq
  rw [BitVec.toNat_sub, BitVec.toNat_ofNat]
  rcases span_cases hlevel with hspan | hspan | hspan
  all_goals
    rw [hspan] at h hin ⊢
    omega

/-- A page has no address that is not canonical. -/
theorem Canonical.of_same {level : Nat} (h : Canonical va) (hlevel : level ≤ 2)
    (hin : va.toNat / span level = va'.toNat / span level) : Canonical va' := by
  rw [Canonical] at h ⊢
  have hva' := va'.isLt
  rcases span_cases hlevel with hspan | hspan | hspan
  all_goals
    rw [hspan] at hin
    omega

end SignalOS.Mmu
