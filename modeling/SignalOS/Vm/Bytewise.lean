import SignalOS.Vm.Uaccess

/-!
# Copying to user memory, byte by byte

`copy_to_user` copies page by page.  What it leaves in memory is the same as if the
bytes were stored one after the other, up to the first that has no user page, and
this file says which byte of the source each byte of memory then holds: the last one
that was stored there.

* `copyToUser_cons` — **one byte, then the rest**.
* `Reached`, `LastAt` — the copy gets as far as a byte; it is the last stored at a
  physical address.
* `copyToUser_last`, `copyToUser_untouched` — every byte of memory after a copy.
* `copyToUser_succeeds` — the copy succeeds exactly if every byte has a user page.
* `UserHolds`, `HoldsAfter` — the bytes behind a user address, now and after a copy.
* `lt_length_copyFromUser` — how far `copy_from_user` gets.
-/

namespace SignalOS

variable {vm : Vm} {mm : Mm} {dst : Uint64} {b : Byte} {bs src : List Byte}

/-! ## One byte -/

theorem userPa_eq_none : userPa vm mm dst = none ↔ walkaddr vm mm (PGROUNDDOWN dst) = 0 := by
  rw [userPa]
  by_cases h : walkaddr vm mm (PGROUNDDOWN dst) = 0 <;> simp [h]

theorem memmove_singleton (m : Uint64 → Byte) (a : Uint64) (b : Byte) :
    memmove m a [b] = Function.update m a b := by
  funext x
  rw [memmove, Function.update_apply]
  by_cases hx : x = a
  · subst hx
    simp
  · have hne : (x - a).toNat ≠ 0 := fun h => hx (by
      have hzero : x - a = 0 := BitVec.eq_of_toNat_eq h
      grind)
    rw [if_neg hx, if_neg (by simp only [List.length_singleton]; omega)]

/-- A store of a byte and of the bytes after it is one store. -/
theorem memmove_cons (m : Uint64 → Byte) (a : Uint64) (b : Byte) {bs : List Byte}
    (h : bs.length < 4096) :
    memmove (memmove m a [b]) (a + 1) bs = memmove m a (b :: bs) := by
  funext x
  rw [memmove_singleton]
  set i := (x - a).toNat with hi
  have hlt : i < 2 ^ 64 := (x - a).isLt
  have hx : x = a + BitVec.ofNat 64 i := add_toNat_sub.symm
  have hsub : (x - (a + 1)).toNat = if i = 0 then 2 ^ 64 - 1 else i - 1 := by
    have heq : x - (a + 1) = x - a - 1 := by grind
    have hone : (1 : Uint64).toNat = 1 := rfl
    rw [heq, BitVec.toNat_sub, ← hi, hone]
    split <;> omega
  simp only [memmove, ← hi, hsub, List.length_cons]
  by_cases hzero : i = 0
  · have hxa : x = a := by rw [hx, hzero]; simp
    simp only [hzero, if_true, hxa, Function.update_self, List.getD_cons_zero]
    rw [if_neg (by omega), if_pos (by omega)]
  · have hne : x ≠ a := by
      rintro rfl
      simp at hi
      exact hzero hi
    rw [if_neg hzero, Function.update_of_ne hne]
    obtain ⟨n, hn⟩ := Nat.exists_eq_succ_of_ne_zero hzero
    by_cases hin : n < bs.length
    · rw [hn, Nat.succ_sub_one, if_pos hin, if_pos (by omega), List.getD_cons_succ]
    · rw [hn, Nat.succ_sub_one, if_neg hin, if_neg (by omega)]

theorem pageRest_succ (h : 1 < pageRest dst) :
    PGROUNDDOWN (dst + 1) = PGROUNDDOWN dst ∧ pageRest (dst + 1) = pageRest dst - 1 := by
  obtain ⟨i, hi, hdst⟩ := exists_offset dst
  have hpage := pageStart_PGROUNDDOWN dst
  have hrest : pageRest dst = 4096 - i := by rw [hdst, pageRest_offset hpage hi]
  have hnext : dst + 1 = PGROUNDDOWN dst + BitVec.ofNat 64 (i + 1) := by
    rw [BitVec.ofNat_add, ← BitVec.add_assoc, ← hdst]
    rfl
  rw [hnext, PGROUNDDOWN_add hpage (by omega), pageRest_offset hpage (by omega), hrest]
  exact ⟨rfl, by omega⟩

/-- **One byte, then the rest.** -/
theorem copyToUser_cons (vm : Vm) (mm : Mm) (dst : Uint64) (b : Byte) (bs : List Byte) :
    copyToUser vm mm dst (b :: bs) =
      match userPa vm mm dst with
      | none => (-EINVAL, vm)
      | some a => copyToUser (vm.store a [b]) mm (dst + 1) bs := by
  rw [copyToUser_eq (List.cons_ne_nil b bs)]
  by_cases hpa : walkaddr vm mm (PGROUNDDOWN dst) = 0
  · rw [if_pos hpa, userPa_eq_none.2 hpa]
  have hsome : userPa vm mm dst = some (walkaddr vm mm (PGROUNDDOWN dst) +
      (dst - PGROUNDDOWN dst)) := by
    simp only [userPa, if_neg hpa]
  rw [if_neg hpa, hsome]
  dsimp only
  set a := walkaddr vm mm (PGROUNDDOWN dst) + (dst - PGROUNDDOWN dst) with ha
  have hpos := pageRest_pos dst
  have hle := pageRest_le dst
  by_cases hone : pageRest dst = 1
  · -- the byte is the last one of its page
    have hmin : min (pageRest dst) (b :: bs).length = 1 := by rw [hone, List.length_cons]; omega
    have hnext : PGROUNDDOWN dst + PGSIZE = dst + 1 := by
      rw [add_pageRest, hone]
      rfl
    rw [hmin, hnext, List.take_succ_cons, List.take_zero, List.drop_succ_cons, List.drop_zero]
  obtain ⟨hpage, hrest⟩ := @pageRest_succ dst (by omega)
  have hmin : min (pageRest dst) (b :: bs).length = min (pageRest (dst + 1)) bs.length + 1 := by
    rw [hrest, List.length_cons]
    omega
  rw [hmin, List.take_succ_cons, List.drop_succ_cons]
  by_cases hbs : bs = []
  · subst hbs
    simp
  have hwalk : walkaddr (vm.store a [b]) mm (PGROUNDDOWN (dst + 1)) = walkaddr vm mm
      (PGROUNDDOWN dst) := by
    rw [hpage, walkaddr_congr (Vm.store_pte _ _ _)]
  have hnext : walkaddr vm mm (PGROUNDDOWN dst) + (dst + 1 - PGROUNDDOWN dst) = a + 1 := by
    rw [ha]
    grind
  rw [copyToUser_eq hbs, hwalk, if_neg hpa, hpage, hnext]
  have hfit : (bs.take (min (pageRest (dst + 1)) bs.length)).length < 4096 := by
    rw [List.length_take]
    omega
  simp only [Vm.store, memmove_cons _ _ _ hfit]

/-! ## How far a copy gets -/

/-- The copy to `dst` gets as far as its byte `i`. -/
def Reached (vm : Vm) (mm : Mm) (dst : Uint64) (i : Nat) : Prop :=
  ∀ j ≤ i, userPa vm mm (dst + BitVec.ofNat 64 j) ≠ none

instance (vm : Vm) (mm : Mm) (dst : Uint64) (i : Nat) : Decidable (Reached vm mm dst i) :=
  decidable_of_iff (∀ j < i + 1, userPa vm mm (dst + BitVec.ofNat 64 j) ≠ none)
    ⟨fun h j hj => h j (by omega), fun h j hj => h j (by omega)⟩

theorem Reached.mono {i j : Nat} (h : Reached vm mm dst j) (hij : i ≤ j) : Reached vm mm dst i :=
  fun n hn => h n (hn.trans hij)

theorem reached_congr {vm' : Vm} (hpte : vm'.pte = vm.pte) (i : Nat) :
    Reached vm' mm dst i ↔ Reached vm mm dst i := by
  simp only [Reached, userPa_congr hpte]

theorem ofNat_succ_add (dst : Uint64) (i : Nat) :
    dst + BitVec.ofNat 64 (i + 1) = dst + 1 + BitVec.ofNat 64 i := by
  rw [Nat.add_comm, BitVec.ofNat_add, ← BitVec.add_assoc]
  rfl

theorem reached_succ {i : Nat} :
    Reached vm mm dst (i + 1) ↔ userPa vm mm dst ≠ none ∧ Reached vm mm (dst + 1) i := by
  constructor
  · intro h
    refine ⟨?_, fun j hj => ?_⟩
    · simpa using h 0 (by omega)
    · rw [← ofNat_succ_add]
      exact h (j + 1) (by omega)
  · rintro ⟨hzero, h⟩ j hj
    cases j with
    | zero => simpa using hzero
    | succ j =>
      rw [ofNat_succ_add]
      exact h j (by omega)

/-- **A copy succeeds exactly if it gets as far as the last byte.** -/
theorem copyToUser_succeeds (vm : Vm) (mm : Mm) (dst : Uint64) (src : List Byte) :
    (copyToUser vm mm dst src).1 = 0 ∧ (∀ i < src.length, Reached vm mm dst i) ∨
      (copyToUser vm mm dst src).1 = -EINVAL ∧ ∃ i < src.length, ¬ Reached vm mm dst i := by
  induction src generalizing vm dst with
  | nil => exact .inl ⟨rfl, fun i hi => absurd hi (Nat.not_lt_zero i)⟩
  | cons b bs ih =>
    rw [copyToUser_cons]
    cases hpa : userPa vm mm dst with
    | none =>
      refine .inr ⟨rfl, 0, Nat.succ_pos _, fun h => ?_⟩
      exact absurd hpa (by simpa using h 0 le_rfl)
    | some a =>
      have hmapped : userPa vm mm dst ≠ none := by simp [hpa]
      rcases ih (vm.store a [b]) (dst + 1) with ⟨hret, hall⟩ | ⟨hret, i, hi, hstop⟩
      · refine .inl ⟨hret, fun i hi => ?_⟩
        cases i with
        | zero =>
          intro j hj
          rw [Nat.le_zero.1 hj]
          simpa using hmapped
        | succ i =>
          refine reached_succ.2 ⟨hmapped, (reached_congr (Vm.store_pte vm a [b]) i).1 ?_⟩
          exact hall i (by simpa using hi)
      · refine .inr ⟨hret, i + 1, by simpa using hi, fun h => hstop ?_⟩
        exact (reached_congr (Vm.store_pte vm a [b]) i).2 (reached_succ.1 h).2

theorem copyToUser_failed_iff :
    (copyToUser vm mm dst src).1 < 0 ↔ ∃ i < src.length, ¬ Reached vm mm dst i := by
  have hneg : -EINVAL < 0 := by decide
  rcases copyToUser_succeeds vm mm dst src with ⟨hret, hall⟩ | ⟨hret, hstop⟩
  · rw [hret]
    exact iff_of_false (lt_irrefl 0) fun ⟨i, hi, hstop⟩ => hstop (hall i hi)
  · rw [hret]
    exact iff_of_true hneg hstop

/-! ## Memory after a copy -/

/-- The byte `i` of the `len` bytes is the last one a copy to `dst` stores at `a`. -/
def LastAt (vm : Vm) (mm : Mm) (dst : Uint64) (len i : Nat) (a : Uint64) : Prop :=
  i < len ∧ Reached vm mm dst i ∧ userPa vm mm (dst + BitVec.ofNat 64 i) = some a ∧
    ∀ j < len, i < j → Reached vm mm dst j → userPa vm mm (dst + BitVec.ofNat 64 j) ≠ some a

instance (vm : Vm) (mm : Mm) (dst : Uint64) (len i : Nat) (a : Uint64) :
    Decidable (LastAt vm mm dst len i a) := inferInstanceAs (Decidable (_ ∧ _ ∧ _ ∧ _))

/-- A byte of memory to which nothing is copied. -/
theorem copyToUser_untouched {a : Uint64} (h : ∀ i < src.length, Reached vm mm dst i →
      userPa vm mm (dst + BitVec.ofNat 64 i) ≠ some a) :
    (copyToUser vm mm dst src).2.byte a = vm.byte a := by
  induction src generalizing vm dst with
  | nil => rfl
  | cons b bs ih =>
    rw [copyToUser_cons]
    cases hpa : userPa vm mm dst with
    | none => rfl
    | some a₀ =>
      have hmapped : userPa vm mm dst ≠ none := by simp [hpa]
      have hne : a ≠ a₀ := by
        rintro rfl
        refine h 0 (Nat.succ_pos _) (fun j hj => ?_) (by simpa using hpa)
        rw [Nat.le_zero.1 hj]
        simpa using hmapped
      dsimp only
      rw [ih fun i hi hreach => ?_, Vm.store_byte, memmove_singleton, Function.update_of_ne hne]
      rw [userPa_congr (Vm.store_pte vm a₀ [b]), ← ofNat_succ_add]
      refine h (i + 1) (by simpa using hi) (reached_succ.2 ⟨hmapped, ?_⟩)
      exact (reached_congr (Vm.store_pte vm a₀ [b]) i).1 hreach

/-- **A byte of memory holds the last byte of the source that was copied to it.** -/
theorem copyToUser_last {a : Uint64} {i : Nat} (h : LastAt vm mm dst src.length i a) :
    (copyToUser vm mm dst src).2.byte a = src.getD i 0 := by
  induction src generalizing vm dst i with
  | nil => exact absurd h.1 (Nat.not_lt_zero i)
  | cons b bs ih =>
    obtain ⟨hi, hreach, hpa, hlast⟩ := h
    have hmapped : userPa vm mm dst ≠ none := by simpa using hreach 0 (Nat.zero_le i)
    obtain ⟨a₀, ha₀⟩ := Option.ne_none_iff_exists'.1 hmapped
    have hpte := Vm.store_pte vm a₀ [b]
    rw [copyToUser_cons, ha₀]
    dsimp only
    cases i with
    | zero =>
      have hsame : a₀ = a := by simpa [ha₀] using hpa
      subst hsame
      rw [copyToUser_untouched fun j hj hj' => ?_, Vm.store_byte, memmove_singleton,
        Function.update_self, List.getD_cons_zero]
      rw [userPa_congr hpte, ← ofNat_succ_add]
      exact hlast (j + 1) (by simpa using hj) (Nat.succ_pos j)
        (reached_succ.2 ⟨hmapped, (reached_congr hpte j).1 hj'⟩)
    | succ i =>
      rw [ih ⟨by simpa using hi, (reached_congr hpte i).2 (reached_succ.1 hreach).2, ?_, ?_⟩,
        List.getD_cons_succ]
      · rw [userPa_congr hpte, ← ofNat_succ_add]
        exact hpa
      · intro j hj hij hj'
        rw [userPa_congr hpte, ← ofNat_succ_add]
        exact hlast (j + 1) (by simpa using hj) (by omega)
          (reached_succ.2 ⟨hmapped, (reached_congr hpte j).1 hj'⟩)

/-- What is stored somewhere has a last byte there. -/
theorem exists_lastAt {len n : Nat} {a : Uint64} (hn : n < len) (hreach : Reached vm mm dst n)
    (hpa : userPa vm mm (dst + BitVec.ofNat 64 n) = some a) :
    ∃ i, n ≤ i ∧ LastAt vm mm dst len i a := by
  induction hk : len - n using Nat.strong_induction_on generalizing n with
  | _ k ih =>
    by_cases hlast : ∀ j < len, n < j → Reached vm mm dst j →
        userPa vm mm (dst + BitVec.ofNat 64 j) ≠ some a
    · exact ⟨n, le_rfl, hn, hreach, hpa, hlast⟩
    · push Not at hlast
      obtain ⟨j, hj, hnj, hreach', hpa'⟩ := hlast
      obtain ⟨i, hi, hlast⟩ := ih (len - j) (by omega) hj hreach' hpa' rfl
      exact ⟨i, hnj.le.trans hi, hlast⟩

/-- Once `src` has been copied to `dst`, the byte at `a` is `b`: the last one copied there, or the
one that was there. -/
def ByteAfter (vm : Vm) (mm : Mm) (dst : Uint64) (src : List Byte) (a : Uint64)
    (b : Byte) : Prop :=
  (∃ i < src.length, LastAt vm mm dst src.length i a ∧ src.getD i 0 = b) ∨
    (∀ i < src.length, Reached vm mm dst i → userPa vm mm (dst + BitVec.ofNat 64 i) ≠ some a) ∧
      vm.byte a = b

instance (vm : Vm) (mm : Mm) (dst : Uint64) (src : List Byte) (a : Uint64) (b : Byte) :
    Decidable (ByteAfter vm mm dst src a b) := inferInstanceAs (Decidable (_ ∨ _ ∧ _))

theorem byteAfter_iff {a : Uint64} {b : Byte} :
    ByteAfter vm mm dst src a b ↔ (copyToUser vm mm dst src).2.byte a = b := by
  constructor
  · rintro (⟨i, -, hlast, hb⟩ | ⟨hnone, hb⟩)
    · rw [copyToUser_last hlast, hb]
    · rw [copyToUser_untouched hnone, hb]
  · intro hb
    by_cases hnone : ∀ i < src.length, Reached vm mm dst i →
        userPa vm mm (dst + BitVec.ofNat 64 i) ≠ some a
    · exact .inr ⟨hnone, by rw [← hb, copyToUser_untouched hnone]⟩
    · push Not at hnone
      obtain ⟨n, hn, hreach, hpa⟩ := hnone
      obtain ⟨i, -, hlast⟩ := exists_lastAt hn hreach hpa
      exact .inl ⟨i, hlast.1, hlast, by rw [← hb, copyToUser_last hlast]⟩

/-! ## What user memory holds -/

/-- User memory at `va` holds these bytes. -/
def UserHolds (vm : Vm) (mm : Mm) (va : Uint64) (bs : List Byte) : Prop :=
  ∀ j < bs.length, userByte vm mm (va + BitVec.ofNat 64 j) = some (bs.getD j 0)

instance (vm : Vm) (mm : Mm) (va : Uint64) (bs : List Byte) : Decidable (UserHolds vm mm va bs) :=
  inferInstanceAs (Decidable (∀ j < bs.length, _))

/-- User memory at `va` holds `bs` once `src` has been copied to `dst`. -/
def HoldsAfter (vm : Vm) (mm : Mm) (dst : Uint64) (src : List Byte) (va : Uint64)
    (bs : List Byte) : Prop :=
  ∀ j < bs.length, ∃ a ∈ userPa vm mm (va + BitVec.ofNat 64 j),
    ByteAfter vm mm dst src a (bs.getD j 0)

theorem holdsAfter_iff {va : Uint64} :
    HoldsAfter vm mm dst src va bs ↔ UserHolds (copyToUser vm mm dst src).2 mm va bs := by
  refine forall₂_congr fun j _ => ?_
  rw [userByte, userPa_congr (copyToUser_pte _ _ _ _), Option.map_eq_some_iff]
  simp only [byteAfter_iff, Option.mem_def]

/-! ## Copying from user memory -/

theorem userByte_eq_none : userByte vm mm dst = none ↔ userPa vm mm dst = none := by
  rw [userByte, Option.map_eq_none_iff]

/-- How many bytes `copy_from_user` copies. -/
theorem lt_length_copyFromUser {len j : Nat} :
    j < (copyFromUser vm mm dst len).2.length ↔ j < len ∧ Reached vm mm dst j := by
  have hresult := copyFromUser_result vm mm dst len
  constructor
  · intro hj
    refine ⟨by omega, fun n hn hnone => ?_⟩
    have hbyte := copyFromUser_getElem (hn.trans_lt hj)
    rw [userByte_eq_none.2 hnone] at hbyte
    exact absurd hbyte (by simp)
  · rintro ⟨hj, hreach⟩
    by_contra hle
    have hneg : (-EINVAL : Int) ≠ 0 := by decide
    have hstop := @copyFromUser_stop vm mm dst len
      (by rcases hresult with ⟨-, hlen⟩ | ⟨hret, -⟩; omega; rwa [hret])
    exact hreach _ (Nat.not_lt.1 hle) (userByte_eq_none.1 hstop)

/-- What `copy_from_user` copies is what user memory holds. -/
theorem userHolds_copyFromUser (vm : Vm) (mm : Mm) (va : Uint64) (len : Nat) :
    UserHolds vm mm va (copyFromUser vm mm va len).2 := by
  intro j hj
  rw [← List.getElem_eq_getD (h := hj)]
  exact copyFromUser_getElem hj

/-- User memory holds one string of bytes of each length. -/
theorem UserHolds.unique {va : Uint64} {bs' : List Byte} (h : UserHolds vm mm va bs)
    (h' : UserHolds vm mm va bs') (hlen : bs.length = bs'.length) : bs = bs' := by
  refine List.ext_getElem hlen fun j hj hj' => ?_
  have heq := (h j hj).symm.trans (h' j hj')
  rwa [← List.getElem_eq_getD (h := hj), ← List.getElem_eq_getD (h := hj'), Option.some.injEq]
    at heq

theorem copyFromUser_failed_iff {len : Nat} :
    (copyFromUser vm mm dst len).1 < 0 ↔ ∃ i < len, ¬ Reached vm mm dst i := by
  have hneg : -EINVAL < 0 := by decide
  rcases copyFromUser_result vm mm dst len with ⟨hret, hlen⟩ | ⟨hret, hlen⟩
  · rw [hret]
    refine iff_of_false (lt_irrefl 0) fun ⟨i, hi, hstop⟩ => ?_
    have hlt : i < (copyFromUser vm mm dst len).2.length := by omega
    exact hstop (lt_length_copyFromUser.1 hlt).2
  · rw [hret]
    refine iff_of_true hneg ⟨_, hlen, fun hreach => ?_⟩
    exact absurd (lt_length_copyFromUser.2 ⟨hlen, hreach⟩) (lt_irrefl _)

end SignalOS
