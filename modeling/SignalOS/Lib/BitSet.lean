import Mathlib.Data.Set.Insert

/-!
# Bit vectors as sets of bit positions

A word with the shift-and-mask idioms of C read as a set: `1 <<< i` is a
singleton, `|` a union, `& ~` a difference, and `(s & (1 <<< i)) != 0` the
membership test.

* `elems` — the set a word stands for; `mem_elems` ties it to the C test.
* `elems_or`, `elems_erase`, `elems_zero` — the operations.
-/

namespace BitSet

variable {w : Nat}

/-- The set of bit positions a word stands for. -/
def elems (s : BitVec w) : Set Nat := {i | s.getLsbD i = true}

theorem mem_elems {s : BitVec w} {i : Nat} : i ∈ elems s ↔ s.getLsbD i = true := Iff.rfl

theorem getLsbD_single {i : Nat} (hi : i < w) (j : Nat) :
    ((1#w) <<< i).getLsbD j = decide (j = i) := by
  by_cases hj : j = i
  · subst hj
    simp [hi]
  · rw [BitVec.getLsbD_shiftLeft, BitVec.getLsbD_one]
    have : ¬(i ≤ j ∧ j - i = 0) := by omega
    simp only [hj, decide_false]
    by_cases hlt : j < i
    · simp [hlt]
    · have hne : ¬ j - i = 0 := by omega
      simp [hne]

/-- The membership test of C: masking with the singleton leaves a non-zero word. -/
theorem and_single_ne_zero {s : BitVec w} {i : Nat} (hi : i < w) :
    s &&& ((1#w) <<< i) ≠ 0#w ↔ i ∈ elems s := by
  rw [mem_elems]
  constructor
  · intro h
    by_contra hs
    refine h (BitVec.eq_of_getLsbD_eq fun j hj => ?_)
    rw [BitVec.getLsbD_and, getLsbD_single hi, BitVec.getLsbD_zero]
    by_cases hji : j = i
    · subst hji; simp [hs]
    · simp [hji]
  · intro h hz
    have hbit : (s &&& ((1#w) <<< i)).getLsbD i = true := by
      rw [BitVec.getLsbD_and, getLsbD_single hi, h]
      simp
    rw [hz, BitVec.getLsbD_zero] at hbit
    exact absurd hbit (by simp)

@[simp] theorem elems_zero : elems (0#w) = ∅ := by
  ext i
  simp [mem_elems]

theorem elems_or (s t : BitVec w) : elems (s ||| t) = elems s ∪ elems t := by
  ext i
  simp [mem_elems, BitVec.getLsbD_or]

theorem elems_single {i : Nat} (hi : i < w) : elems ((1#w) <<< i) = {i} := by
  ext j
  rw [mem_elems, getLsbD_single hi]
  simp

/-- Clearing a bit removes its position. -/
theorem elems_erase {s : BitVec w} {i : Nat} (hi : i < w) :
    elems (s &&& ~~~((1#w) <<< i)) = elems s \ {i} := by
  ext j
  rw [mem_elems, BitVec.getLsbD_and, BitVec.getLsbD_not, getLsbD_single hi]
  by_cases hj : j < w
  · by_cases hji : j = i
    · simp [hji]
    · simp [hj, hji, mem_elems]
  · have : s.getLsbD j = false := BitVec.getLsbD_of_ge s j (by omega)
    simp [this, mem_elems]

/-- Clearing a bit that is not set changes nothing. -/
theorem erase_of_notMem {s : BitVec w} {i : Nat} (hi : i < w) (h : i ∉ elems s) :
    s &&& ~~~((1#w) <<< i) = s := by
  refine BitVec.eq_of_getLsbD_eq fun j hj => ?_
  rw [BitVec.getLsbD_and, BitVec.getLsbD_not, getLsbD_single hi]
  by_cases hji : j = i
  · subst hji
    rw [mem_elems, Bool.not_eq_true] at h
    simp [h]
  · simp [hj, hji]

end BitSet
