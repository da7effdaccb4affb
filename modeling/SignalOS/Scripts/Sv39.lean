import Mathlib.Data.Nat.Bitwise

/-!
# The address helper of `sv39.py`

The script's integers are unbounded; a 64-bit address is a number below `2^64`.

* `validateSv39Address`, `calculateVpnAndOffset` — the functions of the script.
* `Canonical` — the rule of the docstring: the bits 63..39 are those of bit 38.
* `decodes_iff` — **the helper decodes the addresses from `2^38` on as it should, and no lower
  one**. -/

namespace SignalOS.Sv39

/-- Python's `ValueError`, with its message. -/
structure ValueError where
  message : String
  deriving DecidableEq

/-- `higher_addr_mask`. -/
def higherAddrMask : Nat := 0xffffff8000000000

/-- `validate_sv39_address(virtual_address)`. -/
def validateSv39Address (virtualAddress : Nat) : Except ValueError Unit :=
  let bit38 := (virtualAddress >>> 38) &&& 1
  let higherAllZero := virtualAddress &&& higherAddrMask = 0
  let higherAllOne := virtualAddress &&& higherAddrMask = higherAddrMask
  if ¬ (higherAllZero ∨ higherAllOne) then
    .error ⟨"Invalid Sv39 address: higher bits are not all 1"⟩
  else if ¬ (bit38 ≠ 0 ∧ higherAllOne) then
    .error ⟨"Invalid Sv39 address: higher bits do not match the 38th bit."⟩
  else .ok ()

/-- What `calculate_vpn_and_offset` returns. -/
structure Decoded where
  vpn2 : Nat
  vpn1 : Nat
  vpn0 : Nat
  pageOffset : Nat
  deriving DecidableEq

/-- `calculate_vpn_and_offset(virtual_address)`. -/
def calculateVpnAndOffset (virtualAddress : Nat) : Except ValueError Decoded := do
  validateSv39Address virtualAddress
  let vpnMask := 0x1FF
  let pageOffsetMask := 0xFFF
  return {
    vpn2 := (virtualAddress >>> 30) &&& vpnMask
    vpn1 := (virtualAddress >>> 21) &&& vpnMask
    vpn0 := (virtualAddress >>> 12) &&& vpnMask
    pageOffset := virtualAddress &&& pageOffsetMask }

/-- The bits 63..39 of an address are equal to bit 38. -/
def Canonical (va : Nat) : Prop := ∀ i, 39 ≤ i → i < 64 → va.testBit i = va.testBit 38

/-- The parts of an address, for its low 39 bits. -/
structure Decoded.IsOf (d : Decoded) (va : Nat) : Prop where
  sum : d.vpn2 * 2 ^ 30 + d.vpn1 * 2 ^ 21 + d.vpn0 * 2 ^ 12 + d.pageOffset = va % 2 ^ 39
  vpn2 : d.vpn2 < 512
  vpn1 : d.vpn1 < 512
  vpn0 : d.vpn0 < 512

/-- The helper raises an exception for an address that is not canonical and decodes one that is. -/
structure Decodes (va : Nat) : Prop where
  raises : (∃ e, calculateVpnAndOffset va = .error e) ↔ ¬ Canonical va
  returns : ∀ d, calculateVpnAndOffset va = .ok d → d.IsOf va

variable {va : Nat}

/-! ## The tests of the high bits -/

theorem and_higherAddrMask (h : va < 2 ^ 64) : va &&& higherAddrMask = va >>> 39 <<< 39 := by
  have hmask : higherAddrMask = (2 ^ 25 - 1) <<< 39 := rfl
  refine Nat.eq_of_testBit_eq fun i => ?_
  rw [hmask, Nat.testBit_and, Nat.testBit_shiftLeft, Nat.testBit_shiftLeft, Nat.testBit_shiftRight,
    Nat.testBit_two_pow_sub_one]
  by_cases hi : 39 ≤ i
  · have hback : 39 + (i - 39) = i := by omega
    by_cases htop : i < 64
    · simp [hi, hback, show i - 39 < 25 by omega]
    · have hzero : va.testBit i = false :=
        Nat.testBit_lt_two_pow (h.trans_le (Nat.pow_le_pow_right (by decide) (by omega)))
      simp [hback, hzero]
  · simp [hi]

theorem higherAllZero_iff (h : va < 2 ^ 64) : va &&& higherAddrMask = 0 ↔ va < 2 ^ 39 := by
  rw [and_higherAddrMask h, Nat.shiftLeft_eq, Nat.shiftRight_eq_div_pow]
  omega

theorem higherAllOne_iff (h : va < 2 ^ 64) :
    va &&& higherAddrMask = higherAddrMask ↔ 2 ^ 64 - 2 ^ 39 ≤ va := by
  rw [and_higherAddrMask h, Nat.shiftLeft_eq, Nat.shiftRight_eq_div_pow, higherAddrMask]
  omega

/-- The canonical addresses are a low half and a high half. -/
theorem canonical_iff (h : va < 2 ^ 64) : Canonical va ↔ va < 2 ^ 38 ∨ 2 ^ 64 - 2 ^ 38 ≤ va := by
  have hbit (i : Nat) : (va >>> 38).testBit i = va.testBit (38 + i) := Nat.testBit_shiftRight ..
  have hlow : va < 2 ^ 38 ↔ va >>> 38 = 0 := by
    rw [Nat.shiftRight_eq_div_pow]
    omega
  have hhigh : 2 ^ 64 - 2 ^ 38 ≤ va ↔ va >>> 38 = 2 ^ 26 - 1 := by
    rw [Nat.shiftRight_eq_div_pow]
    omega
  rw [hlow, hhigh]
  constructor
  · intro hcan
    -- above bit 63 an address has no bits
    have habove (i : Nat) (hi : 26 ≤ i) : va.testBit (38 + i) = false :=
      Nat.testBit_lt_two_pow (h.trans_le (Nat.pow_le_pow_right (by decide) (by omega)))
    have hsame (i : Nat) (hi : i < 26) : va.testBit (38 + i) = va.testBit 38 := by
      by_cases hzero : i = 0
      · rw [hzero]
      · exact hcan (38 + i) (by omega) (by omega)
    cases h38 : va.testBit 38 with
    | false =>
      refine .inl (Nat.eq_of_testBit_eq fun i => ?_)
      rw [hbit, Nat.zero_testBit]
      by_cases hi : i < 26
      · rw [hsame i hi, h38]
      · exact habove i (by omega)
    | true =>
      refine .inr (Nat.eq_of_testBit_eq fun i => ?_)
      rw [hbit, Nat.testBit_two_pow_sub_one]
      by_cases hi : i < 26
      · rw [hsame i hi, h38, decide_eq_true hi]
      · rw [habove i (by omega), decide_eq_false hi]
  · intro hhalf i hi htop
    have hi' : va.testBit i = (va >>> 38).testBit (i - 38) := by
      rw [hbit]
      congr 1
      omega
    have h38 : va.testBit 38 = (va >>> 38).testBit 0 := (hbit 0).symm
    rw [hi', h38]
    rcases hhalf with hzero | hone
    · rw [hzero, Nat.zero_testBit, Nat.zero_testBit]
    · rw [hone, Nat.testBit_two_pow_sub_one, Nat.testBit_two_pow_sub_one,
        decide_eq_true (by omega),
        decide_eq_true (by omega)]

/-! ## What the helper accepts -/

/-- **The two tests together accept the high half alone.** -/
theorem validate_iff (h : va < 2 ^ 64) :
    validateSv39Address va = .ok () ↔ 2 ^ 64 - 2 ^ 38 ≤ va := by
  have hbit38 : (va >>> 38) &&& 1 ≠ 0 ↔ va / 2 ^ 38 % 2 = 1 := by
    rw [Nat.shiftRight_eq_div_pow, Nat.and_one_is_mod]
    omega
  simp only [validateSv39Address, higherAllZero_iff h, higherAllOne_iff h, hbit38]
  split
  · refine iff_of_false (fun hok => by cases hok) ?_
    omega
  · split
    · refine iff_of_false (fun hok => by cases hok) ?_
      omega
    · refine iff_of_true rfl ?_
      omega

theorem calculate_raises (h : validateSv39Address va ≠ .ok ()) :
    ∃ e, calculateVpnAndOffset va = .error e := by
  cases hval : validateSv39Address va with
  | error e => exact ⟨e, by rw [calculateVpnAndOffset, hval]; rfl⟩
  | ok u => exact absurd hval h

theorem calculate_eq (h : validateSv39Address va = .ok ()) : calculateVpnAndOffset va = .ok
    ⟨(va >>> 30) &&& 0x1FF, (va >>> 21) &&& 0x1FF, (va >>> 12) &&& 0x1FF, va &&& 0xFFF⟩ := by
  rw [calculateVpnAndOffset, h]
  rfl

theorem raises_iff (h : va < 2 ^ 64) :
    (∃ e, calculateVpnAndOffset va = .error e) ↔ va < 2 ^ 64 - 2 ^ 38 := by
  have hval := validate_iff h
  by_cases hok : validateSv39Address va = .ok ()
  · refine iff_of_false ?_ (not_lt.2 (hval.1 hok))
    rintro ⟨e, he⟩
    rw [calculate_eq hok] at he
    cases he
  · exact iff_of_true (calculate_raises hok) (not_le.1 (mt hval.2 hok))

/-- The parts are those of the low 39 bits. -/
theorem calculate_isOf {d : Decoded} (h : calculateVpnAndOffset va = .ok d) : d.IsOf va := by
  have hok : validateSv39Address va = .ok () := by
    by_contra hno
    obtain ⟨e, he⟩ := calculate_raises hno
    rw [he] at h
    cases h
  rw [calculate_eq hok] at h
  cases h
  have hvpn (x : Nat) : x &&& 0x1FF = x % 2 ^ 9 := Nat.and_two_pow_sub_one_eq_mod x 9
  have hoff (x : Nat) : x &&& 0xFFF = x % 2 ^ 12 := Nat.and_two_pow_sub_one_eq_mod x 12
  constructor <;> simp only [hvpn, hoff, Nat.shiftRight_eq_div_pow] <;> omega

/-- **The helper is right about every address but those of the low half**: it rejects all of
them. -/
theorem decodes_iff (h : va < 2 ^ 64) : Decodes va ↔ 2 ^ 38 ≤ va := by
  constructor
  · intro hdec
    by_contra hlow
    refine hdec.raises.1 ((raises_iff h).2 ?_) ((canonical_iff h).2 (.inl (not_le.1 hlow)))
    omega
  · intro hle
    refine ⟨?_, fun d => calculate_isOf⟩
    rw [raises_iff h, canonical_iff h]
    omega

/-- The last page is decoded. -/
theorem decodes_lastPage : Decodes 0xfffffffffffff000 := (decodes_iff (by decide)).2 (by decide)

/-- An address of the user stack is rejected. -/
theorem userStack_rejected : ¬ Decodes 0xfffefff8 := by
  intro hdec
  refine hdec.raises.1 ⟨⟨"Invalid Sv39 address: higher bits do not match the 38th bit."⟩, rfl⟩ ?_
  exact (canonical_iff (by decide)).2 (.inl (by decide))

end SignalOS.Sv39
