import SignalOS.Lib.LittleEndian
import SignalOS.Vm.Memory

/-!
# Words in memory

Numbers of four and eight bytes in a byte store, and what a store leaves alone.

* `loadNat`, `storeNat` — the `k` bytes at an address as a number; `loadWord`,
  `storeWord` for 64-bit words and `loadUint`, `storeUint` for 32-bit ones.
* `Differ` — two memories have everything in common outside of a range of addresses.
-/

namespace SignalOS

open LittleEndian

/-- The number in the `k` bytes at `a`. -/
def loadNat (k : Nat) (m : Uint64 → Byte) (a : Uint64) : Nat := valueOf (readBytes m a k)

/-- Memory with the `k` bytes at `a` overwritten by those of a number. -/
def storeNat (k : Nat) (m : Uint64 → Byte) (a : Uint64) (n : Nat) : Uint64 → Byte :=
  memmove m a (bytesOf k n)

/-- `*(uint64 *)a`. -/
def loadWord (m : Uint64 → Byte) (a : Uint64) : Uint64 := BitVec.ofNat 64 (loadNat 8 m a)

/-- Memory as `*(uint64 *)a = w` leaves it. -/
def storeWord (m : Uint64 → Byte) (a w : Uint64) : Uint64 → Byte := storeNat 8 m a w.toNat

/-- `*(uint *)a`. -/
def loadUint (m : Uint64 → Byte) (a : Uint64) : BitVec 32 := BitVec.ofNat 32 (loadNat 4 m a)

/-- Memory as `*(uint *)a = w` leaves it. -/
def storeUint (m : Uint64 → Byte) (a : Uint64) (w : BitVec 32) : Uint64 → Byte :=
  storeNat 4 m a w.toNat

/-- A number that was stored is read back. -/
theorem loadNat_storeNat {k : Nat} (hk : k < 2 ^ 64) (m : Uint64 → Byte) (a : Uint64) (n : Nat) :
    loadNat k (storeNat k m a n) a = n % 256 ^ k := by
  have hbytes : readBytes (storeNat k m a n) a k = bytesOf k n := by
    refine List.ext_getElem (by simp) fun i hi hi' => ?_
    have hlt : i < k := by simpa using hi'
    rw [getElem_readBytes, storeNat, memmove_offset hi' (by omega)]
  rw [loadNat, hbytes, valueOf_bytesOf]

theorem loadWord_storeWord (m : Uint64 → Byte) (a w : Uint64) :
    loadWord (storeWord m a w) a = w := by
  have hw : w.toNat < 2 ^ 64 := w.isLt
  apply BitVec.eq_of_toNat_eq
  rw [loadWord, storeWord, loadNat_storeNat (by decide), BitVec.toNat_ofNat]
  omega

theorem loadUint_storeUint (m : Uint64 → Byte) (a : Uint64) (w : BitVec 32) :
    loadUint (storeUint m a w) a = w := by
  have hw : w.toNat < 2 ^ 32 := w.isLt
  apply BitVec.eq_of_toNat_eq
  rw [loadUint, storeUint, loadNat_storeNat (by decide), BitVec.toNat_ofNat]
  omega

/-! ## What a write leaves alone -/

/-- The two memories differ at most in `[lo, hi)`. -/
def Differ (lo hi : Nat) (m m' : Uint64 → Byte) : Prop :=
  ∀ a : Uint64, a.toNat < lo ∨ hi ≤ a.toNat → m' a = m a

namespace Differ

variable {lo hi lo' hi' k : Nat} {m m' m'' : Uint64 → Byte} {a r w n : Uint64} {c : Byte}
  {src : List Byte}

theorem refl : Differ lo hi m m := fun _ _ => rfl

theorem trans (h : Differ lo hi m m') (h' : Differ lo hi m' m'') : Differ lo hi m m'' := by
  intro a ha
  rw [h' a ha, h a ha]

theorem mono (h : Differ lo' hi' m m') (hlo : lo ≤ lo') (hhi : hi' ≤ hi) : Differ lo hi m m' :=
  fun a ha => h a (by omega)

theorem memset (hfit : r.toNat + n.toNat ≤ 2 ^ 64) :
    Differ r.toNat (r.toNat + n.toNat) m (SignalOS.memset m r c n) := by
  intro a ha
  refine if_neg ?_
  rw [BitVec.lt_def, BitVec.toNat_sub]
  have := a.isLt
  omega

theorem memmove (hfit : r.toNat + src.length ≤ 2 ^ 64) :
    Differ r.toNat (r.toNat + src.length) m (SignalOS.memmove m r src) := by
  intro a ha
  refine memmove_of_le ?_
  rw [BitVec.toNat_sub]
  have := a.isLt
  omega

theorem storeNat {v : Nat} (hfit : r.toNat + k ≤ 2 ^ 64) :
    Differ r.toNat (r.toNat + k) m (SignalOS.storeNat k m r v) := by
  have h := @memmove m r (bytesOf k v) (by rwa [length_bytesOf])
  rwa [length_bytesOf] at h

theorem storeWord (hfit : r.toNat + 8 ≤ 2 ^ 64) :
    Differ r.toNat (r.toNat + 8) m (SignalOS.storeWord m r w) :=
  storeNat hfit

theorem storeUint {v : BitVec 32} (hfit : r.toNat + 4 ≤ 2 ^ 64) :
    Differ r.toNat (r.toNat + 4) m (SignalOS.storeUint m r v) :=
  storeNat hfit

/-- A number outside of the range is still there. -/
theorem loadNat (h : Differ lo hi m m') (hfit : a.toNat + k ≤ 2 ^ 64)
    (ha : a.toNat + k ≤ lo ∨ hi ≤ a.toNat) :
    SignalOS.loadNat k m' a = SignalOS.loadNat k m a := by
  have hbytes : readBytes m' a k = readBytes m a k := by
    refine List.map_congr_left fun i hi => h _ ?_
    have hlt : i < k := List.mem_range.1 hi
    rw [BitVec.toNat_add, BitVec.toNat_ofNat]
    omega
  rw [SignalOS.loadNat, SignalOS.loadNat, hbytes]

theorem loadWord (h : Differ lo hi m m') (hfit : a.toNat + 8 ≤ 2 ^ 64)
    (ha : a.toNat + 8 ≤ lo ∨ hi ≤ a.toNat) :
    SignalOS.loadWord m' a = SignalOS.loadWord m a := by
  rw [SignalOS.loadWord, SignalOS.loadWord, h.loadNat hfit ha]

theorem loadUint (h : Differ lo hi m m') (hfit : a.toNat + 4 ≤ 2 ^ 64)
    (ha : a.toNat + 4 ≤ lo ∨ hi ≤ a.toNat) :
    SignalOS.loadUint m' a = SignalOS.loadUint m a := by
  rw [SignalOS.loadUint, SignalOS.loadUint, h.loadNat hfit ha]

end Differ

end SignalOS
