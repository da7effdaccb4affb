import Mathlib.Tactic.NormNum

/-!
# Machine words, pages and Sv39 entries

The constants and macros of `types.h`, `riscv.h` and `memlayout.h` that the
signal and memory code uses, under the names the headers give them.

* `toInt` — a 64-bit register passed as a C `int` argument; `wrapInt` — the value
  an `int` holds after an assignment that may overflow.
* `PGROUNDDOWN`, `PX`, `PA2PTE`, `PTE2PA` — page and page-table arithmetic.
* `toNat_PGROUNDDOWN`, `PGROUNDDOWN_add` — rounding down in terms of division by
  the page size, and the page of an address inside a page.
-/

namespace SignalOS

/-- `uint64` of `types.h`. -/
abbrev Uint64 := BitVec 64

/-- `uint8`: one byte of memory. -/
abbrev Byte := BitVec 8

/-- The two's complement value an `int` variable holds for `n`. -/
def wrapInt (n : Int) : Int := (BitVec.ofInt 32 n).toInt

/-- A 64-bit register converted to a C `int`. -/
def toInt (x : Uint64) : Int := (x.setWidth 32).toInt

/-- A C `int` (or `int64`) converted to `uint64`. -/
def ofInt (n : Int) : Uint64 := BitVec.ofInt 64 n

/-! ## Error numbers -/

def ENOMEM : Int := 1
def EINVAL : Int := 2
def ECHILD : Int := 3
def ENOENT : Int := 4

/-! ## Pages -/

def PGSIZE : Uint64 := 4096

/-- `PGROUNDDOWN(a)`: `a & ~(PGSIZE - 1)`. -/
def PGROUNDDOWN (a : Uint64) : Uint64 := a &&& ~~~(PGSIZE - 1)

/-- `PGROUNDUP(sz)`: `(sz + PGSIZE - 1) & ~(PGSIZE - 1)`. -/
def PGROUNDUP (sz : Uint64) : Uint64 := (sz + PGSIZE - 1) &&& ~~~(PGSIZE - 1)

/-- `PGALIGNED(a)`: `(a & (PGSIZE - 1)) == 0`. -/
def PGALIGNED (a : Uint64) : Bool := a &&& (PGSIZE - 1) == 0

def MIN (x y : Uint64) : Uint64 := if x < y then x else y

def MAX (x y : Uint64) : Uint64 := if x > y then x else y

/-! ## Page-table entries -/

def PTE_V : Uint64 := 1 <<< 0
def PTE_R : Uint64 := 1 <<< 1
def PTE_W : Uint64 := 1 <<< 2
def PTE_X : Uint64 := 1 <<< 3
def PTE_U : Uint64 := 1 <<< 4
def PTE_A : Uint64 := 1 <<< 6
def PTE_D : Uint64 := 1 <<< 7
def PTE_RWX : Uint64 := PTE_R ||| PTE_W ||| PTE_X

/-- Shift a physical address to the right place for an entry. -/
def PA2PTE (pa : Uint64) : Uint64 := (pa >>> 12) <<< 10

def PTE2PA (pte : Uint64) : Uint64 := (pte >>> 10) <<< 12

/-- `PX(level, va)`: the 9-bit index of `va` into a page table of the level. -/
def PX (level : Nat) (va : Uint64) : Uint64 := (va >>> (12 + 9 * level)) &&& 0x1FF

/-! ## Address-space layout -/

/-- One bit less than Sv39 allows, so that no address needs sign extension. -/
def MAXVA : Uint64 := 1 <<< (9 + 9 + 9 + 12 - 1)

def TRAMPOLINE : Uint64 := MAXVA - PGSIZE
def TRAPFRAME : Uint64 := TRAMPOLINE - PGSIZE

/-- `IS_USER_VA(x)`: the comparison is `<=`, so `MAXVA` itself passes. -/
def IS_USER_VA (x : Uint64) : Bool := x ≤ MAXVA

def KERNEL_DIRECT_MAPPING_BASE : Uint64 := 0xffffffc000000000

/-! ## Page arithmetic -/

/-- A mask that clears the low `k` bits rounds down. -/
theorem toNat_and_mask {mask : Uint64} {k : Nat}
    (hmask : ∀ i < 64, mask.getLsbD i = decide (k ≤ i)) (a : Uint64) :
    (a &&& mask).toNat = a.toNat / 2 ^ k * 2 ^ k := by
  have hshift : a &&& mask = (a >>> k) <<< k := by
    refine BitVec.eq_of_getLsbD_eq fun i hi => ?_
    rw [BitVec.getLsbD_and, hmask i hi, BitVec.getLsbD_shiftLeft, BitVec.getLsbD_ushiftRight]
    by_cases h : k ≤ i
    · simp [h, hi, Nat.not_lt.2 h]
    · simp [h, Nat.lt_of_not_le h]
  rw [hshift, BitVec.toNat_shiftLeft, BitVec.toNat_ushiftRight, Nat.shiftRight_eq_div_pow,
    Nat.shiftLeft_eq]
  exact Nat.mod_eq_of_lt ((Nat.div_mul_le_self _ _).trans_lt a.isLt)

theorem toNat_PGROUNDDOWN (a : Uint64) : (PGROUNDDOWN a).toNat = a.toNat / 4096 * 4096 :=
  toNat_and_mask (k := 12) (by decide) a

theorem PGROUNDDOWN_le (a : Uint64) : PGROUNDDOWN a ≤ a := by
  rw [BitVec.le_def, toNat_PGROUNDDOWN]
  omega

@[simp] theorem PGROUNDDOWN_idem (a : Uint64) : PGROUNDDOWN (PGROUNDDOWN a) = PGROUNDDOWN a := by
  apply BitVec.eq_of_toNat_eq
  simp only [toNat_PGROUNDDOWN]
  omega

/-- A word is the start of a page. -/
def PageStart (a : Uint64) : Prop := a.toNat % 4096 = 0

theorem pageStart_PGROUNDDOWN (a : Uint64) : PageStart (PGROUNDDOWN a) := by
  rw [PageStart, toNat_PGROUNDDOWN]
  omega

theorem pageStart_PTE2PA (pte : Uint64) : PageStart (PTE2PA pte) := by
  rw [PageStart, PTE2PA, BitVec.toNat_shiftLeft, BitVec.toNat_ushiftRight,
    Nat.shiftRight_eq_div_pow, Nat.shiftLeft_eq]
  omega

/-- An address inside a page, as a number. -/
theorem PageStart.toNat_add {p : Uint64} (hp : PageStart p) {i : Nat} (hi : i < 4096) :
    (p + BitVec.ofNat 64 i).toNat = p.toNat + i := by
  have hlt : p.toNat < 2 ^ 64 := p.isLt
  rw [PageStart] at hp
  rw [BitVec.toNat_add, BitVec.toNat_ofNat]
  omega

/-- The page of an address inside a page. -/
theorem PGROUNDDOWN_add {p : Uint64} (hp : PageStart p) {i : Nat} (hi : i < 4096) :
    PGROUNDDOWN (p + BitVec.ofNat 64 i) = p := by
  apply BitVec.eq_of_toNat_eq
  rw [toNat_PGROUNDDOWN, hp.toNat_add hi]
  rw [PageStart] at hp
  omega

/-- Every address is its page plus an offset below the page size. -/
theorem exists_offset (a : Uint64) :
    ∃ i, i < 4096 ∧ a = PGROUNDDOWN a + BitVec.ofNat 64 i := by
  refine ⟨a.toNat % 4096, Nat.mod_lt _ (by norm_num), ?_⟩
  apply BitVec.eq_of_toNat_eq
  rw [(pageStart_PGROUNDDOWN a).toNat_add (Nat.mod_lt _ (by norm_num)), toNat_PGROUNDDOWN]
  omega

theorem toNat_PX (level : Nat) (va : Uint64) :
    (PX level va).toNat = va.toNat / 2 ^ (12 + 9 * level) % 512 := by
  rw [PX, BitVec.toNat_and, BitVec.toNat_ushiftRight, Nat.shiftRight_eq_div_pow]
  exact Nat.and_two_pow_sub_one_eq_mod _ 9

/-- The indices of a user address determine its page. -/
theorem PGROUNDDOWN_eq_of_PX {va va' : Uint64} (h : IS_USER_VA va = true)
    (h' : IS_USER_VA va' = true) (hpx : ∀ level < 3, PX level va = PX level va') :
    PGROUNDDOWN va = PGROUNDDOWN va' := by
  have hmax : MAXVA.toNat = 2 ^ 38 := rfl
  have hva : va.toNat ≤ 2 ^ 38 := hmax ▸ of_decide_eq_true h
  have hva' : va'.toNat ≤ 2 ^ 38 := hmax ▸ of_decide_eq_true h'
  have hlevel (level : Nat) (hlt : level < 3) := congrArg BitVec.toNat (hpx level hlt)
  have h0 := hlevel 0 (by decide)
  have h1 := hlevel 1 (by decide)
  have h2 := hlevel 2 (by decide)
  simp only [toNat_PX] at h0 h1 h2
  apply BitVec.eq_of_toNat_eq
  rw [toNat_PGROUNDDOWN, toNat_PGROUNDDOWN]
  norm_num at h0 h1 h2
  omega

end SignalOS
