import Mathlib.Data.List.Basic
import Mathlib.Tactic.Ring

/-!
# Words as little-endian bytes

Numbers and lists of 64-bit words as the bytes a little-endian machine stores
for them, and back.

* `bytesOf k n`, `valueOf` — the `k` low bytes of a number; the number a list of
  bytes stands for.  `valueOf_bytesOf` is the round trip.
* `bytesOfWords`, `wordAt` — an array of 64-bit words as bytes; the `k`-th word of
  a byte string.  `wordAt_bytesOfWords` reads back every word that was written.
* `splice` — a buffer whose first bytes have been overwritten.
-/

namespace LittleEndian

/-- The `k` low bytes of a number, lowest first. -/
def bytesOf : Nat → Nat → List (BitVec 8)
  | 0, _ => []
  | k + 1, n => BitVec.ofNat 8 n :: bytesOf k (n / 256)

/-- The number a list of bytes stands for. -/
def valueOf : List (BitVec 8) → Nat
  | [] => 0
  | b :: bs => b.toNat + 256 * valueOf bs

@[simp] theorem length_bytesOf (k n : Nat) : (bytesOf k n).length = k := by
  induction k generalizing n with
  | zero => rfl
  | succ k ih => simp [bytesOf, ih]

theorem valueOf_bytesOf (k n : Nat) : valueOf (bytesOf k n) = n % 256 ^ k := by
  induction k generalizing n with
  | zero => simp [bytesOf, valueOf, Nat.mod_one]
  | succ k ih =>
    have hbyte : (BitVec.ofNat 8 n).toNat = n % 256 := BitVec.toNat_ofNat n 8
    rw [bytesOf, valueOf, ih, hbyte, pow_succ, mul_comm (256 ^ k) 256, Nat.mod_mul]

theorem valueOf_lt (bs : List (BitVec 8)) : valueOf bs < 256 ^ bs.length := by
  induction bs with
  | nil => simp [valueOf]
  | cons b bs ih =>
    have hb : b.toNat < 256 := b.isLt
    rw [valueOf, List.length_cons, pow_succ]
    omega

theorem bytesOf_valueOf (bs : List (BitVec 8)) : bytesOf bs.length (valueOf bs) = bs := by
  induction bs with
  | nil => rfl
  | cons b bs ih =>
    have hb : b.toNat < 256 := b.isLt
    have hdiv : (b.toNat + 256 * valueOf bs) / 256 = valueOf bs := by omega
    have hhead : BitVec.ofNat 8 (b.toNat + 256 * valueOf bs) = b := by
      apply BitVec.eq_of_toNat_eq
      rw [BitVec.toNat_ofNat]
      omega
    rw [List.length_cons, valueOf, bytesOf, hdiv, ih, hhead]

theorem valueOf_eq_zero {bs : List (BitVec 8)} : valueOf bs = 0 ↔ ∀ b ∈ bs, b = 0 := by
  induction bs with
  | nil => simp [valueOf]
  | cons b bs ih =>
    have hb : b.toNat = 0 ↔ b = 0 := by rw [← BitVec.toNat_inj]; simp
    rw [valueOf, List.forall_mem_cons, ← ih, ← hb]
    omega

/-! ## Arrays of words -/

/-- An array of 64-bit words as bytes. -/
def bytesOfWords (ws : List (BitVec 64)) : List (BitVec 8) :=
  ws.flatMap fun w => bytesOf 8 w.toNat

/-- The `k`-th 64-bit word of a byte string. -/
def wordAt (bs : List (BitVec 8)) (k : Nat) : BitVec 64 :=
  BitVec.ofNat 64 (valueOf ((bs.drop (8 * k)).take 8))

@[simp] theorem length_bytesOfWords (ws : List (BitVec 64)) :
    (bytesOfWords ws).length = 8 * ws.length := by
  induction ws with
  | nil => rfl
  | cons w ws ih =>
    have hcons : bytesOfWords (w :: ws) = bytesOf 8 w.toNat ++ bytesOfWords ws := rfl
    rw [hcons, List.length_append, ih, length_bytesOf, List.length_cons]
    ring

theorem ofNat_valueOf_bytesOf (w : BitVec 64) :
    BitVec.ofNat 64 (valueOf (bytesOf 8 w.toNat)) = w := by
  apply BitVec.eq_of_toNat_eq
  have hw : w.toNat < 2 ^ 64 := w.isLt
  rw [valueOf_bytesOf, BitVec.toNat_ofNat]
  omega

/-- **Every word of an array is read back from its bytes.** -/
theorem wordAt_bytesOfWords {ws : List (BitVec 64)} {k : Nat} (h : k < ws.length) :
    wordAt (bytesOfWords ws) k = ws[k] := by
  induction ws generalizing k with
  | nil => simp at h
  | cons w ws ih =>
    have hcons : bytesOfWords (w :: ws) = bytesOf 8 w.toNat ++ bytesOfWords ws := rfl
    cases k with
    | zero =>
      rw [wordAt, hcons, Nat.mul_zero, List.drop_zero,
        List.take_left' (length_bytesOf 8 w.toNat), ofNat_valueOf_bytesOf]
      rfl
    | succ k =>
      have hdrop : (bytesOf 8 w.toNat ++ bytesOfWords ws).drop (8 * (k + 1))
          = (bytesOfWords ws).drop (8 * k) := by
        rw [show 8 * (k + 1) = (bytesOf 8 w.toNat).length + 8 * k by
          rw [length_bytesOf]; ring, List.drop_length_add_append]
      have hk : k < ws.length := by simpa using h
      have := ih hk
      rw [wordAt] at this ⊢
      rw [hcons, hdrop, this]
      rfl

theorem toNat_wordAt (bs : List (BitVec 8)) (k : Nat) :
    (wordAt bs k).toNat = valueOf ((bs.drop (8 * k)).take 8) := by
  have hlt : valueOf ((bs.drop (8 * k)).take 8) < 2 ^ 64 := by
    refine lt_of_lt_of_le (valueOf_lt _) ?_
    calc 256 ^ ((bs.drop (8 * k)).take 8).length ≤ 256 ^ 8 :=
          Nat.pow_le_pow_right (by norm_num) (by simp)
      _ = 2 ^ 64 := by norm_num
  rw [wordAt, BitVec.toNat_ofNat, Nat.mod_eq_of_lt hlt]

/-- **The bytes of an array are those of its words.** -/
theorem bytesOfWords_wordAt {n : Nat} {bs : List (BitVec 8)} (h : bs.length = 8 * n) :
    bytesOfWords ((List.range n).map (wordAt bs)) = bs := by
  induction n generalizing bs with
  | zero => rw [List.length_eq_zero_iff.1 h]; rfl
  | succ n ih =>
    have htail (k : Nat) : wordAt bs (k + 1) = wordAt (bs.drop 8) k := by
      rw [wordAt, wordAt, List.drop_drop, Nat.mul_succ, Nat.add_comm]
    have hlen : (bs.take 8).length = 8 := by rw [List.length_take]; omega
    have hhead : bytesOf 8 (wordAt bs 0).toNat = bs.take 8 := by
      have hround := bytesOf_valueOf (bs.take 8)
      rw [toNat_wordAt, Nat.mul_zero, List.drop_zero]
      rwa [hlen] at hround
    have hrest : bytesOfWords ((List.range n).map (wordAt (bs.drop 8))) = bs.drop 8 :=
      ih (by rw [List.length_drop]; omega)
    have hmap : (List.range n).map (fun k => wordAt bs (k + 1)) = (List.range n).map
        (wordAt (bs.drop 8)) :=
      List.map_congr_left fun k _ => htail k
    rw [List.range_succ_eq_map, List.map_cons, List.map_map]
    calc bytesOfWords (wordAt bs 0 :: (List.range n).map (wordAt bs ∘ Nat.succ))
        = bytesOf 8 (wordAt bs 0).toNat ++ bytesOfWords
            ((List.range n).map (wordAt (bs.drop 8))) := by
          rw [← hmap]; rfl
      _ = bs := by rw [hhead, hrest, List.take_append_drop]

/-- A word is zero exactly if its eight bytes are. -/
theorem wordAt_eq_zero {bs : List (BitVec 8)} {k : Nat} :
    wordAt bs k = 0 ↔ ∀ b ∈ (bs.drop (8 * k)).take 8, b = 0 := by
  rw [← valueOf_eq_zero, ← toNat_wordAt, ← BitVec.toNat_inj]
  rfl

/-! ## Partly overwritten buffers -/

/-- The buffer `old` after its first bytes have been overwritten by `new`. -/
def splice (new old : List (BitVec 8)) : List (BitVec 8) := new ++ old.drop new.length

theorem length_splice {new old : List (BitVec 8)} (h : new.length ≤ old.length) :
    (splice new old).length = old.length := by
  rw [splice, List.length_append, List.length_drop]
  omega

theorem splice_of_length_le {new old : List (BitVec 8)} (h : old.length ≤ new.length) :
    splice new old = new := by
  rw [splice, List.drop_eq_nil_of_le h, List.append_nil]

theorem getElem_splice {new old : List (BitVec 8)} {j : Nat} (h : j < (splice new old).length) :
    (∃ hj : j < new.length, (splice new old)[j] = new[j]) ∨
      ∃ hj : j < old.length, (splice new old)[j] = old[j] := by
  by_cases hj : j < new.length
  · exact .inl ⟨hj, List.getElem_append_left hj⟩
  · rw [splice, List.length_append, List.length_drop] at h
    refine .inr ⟨by omega, ?_⟩
    simp only [splice, List.getElem_append_right (Nat.not_lt.1 hj), List.getElem_drop,
      Nat.add_sub_cancel' (Nat.not_lt.1 hj)]

@[simp] theorem splice_nil (old : List (BitVec 8)) : splice [] old = old := rfl

end LittleEndian
