import SignalOS.Vm.Walk

/-!
# Copying between the kernel and user memory

`copy_to_user`, `copy_from_user` and `copystr_from_user` of `uaccess.c`.  The
copies go page by page and stop at the first page that is not a valid user page:
what was copied before it stays copied, so each function also returns the bytes,
or the memory, as far as it got.

* `copyToUser_eq`, `copyFromUser_eq` — one turn of the loop.
* `copyToUser_onePage`, `copyFromUser_onePage` — a copy inside one page.
* `copyToUser_byte` — **every byte of memory is unchanged or a byte of the source
  stored at its user address**.
* `copyFromUser_getElem` — every byte copied is the byte of user memory.
-/

namespace SignalOS

/-- The bytes from `va` to the end of its page, as `PGSIZE - (va - va0)`. -/
def pageRest (va : Uint64) : Nat := (PGSIZE - (va - PGROUNDDOWN va)).toNat

/-- The loop of `copy_to_user`; `fuel` bounds the turns. -/
def copyToUserLoop (mm : Mm) : Nat → Vm → Uint64 → List Byte → Int × Vm
  | 0, vm, _, _ => (0, vm)
  | fuel + 1, vm, dstva, src =>
    if src.length = 0 then (0, vm)
    else
      let va0 := PGROUNDDOWN dstva
      let pa0 := walkaddr vm mm va0
      if pa0 = 0 then (-EINVAL, vm)
      else
        let n := min (pageRest dstva) src.length
        copyToUserLoop mm fuel (vm.store (pa0 + (dstva - va0)) (src.take n)) (va0 + PGSIZE)
          (src.drop n)

/-- `copy_to_user(mm, dstva, src, len)`, with `src` the `len` source bytes. -/
def copyToUser (vm : Vm) (mm : Mm) (dstva : Uint64) (src : List Byte) : Int × Vm :=
  copyToUserLoop mm src.length vm dstva src

/-- The loop of `copy_from_user`: its result and the bytes it stored at `dst`. -/
def copyFromUserLoop (vm : Vm) (mm : Mm) : Nat → Uint64 → Nat → Int × List Byte
  | 0, _, _ => (0, [])
  | fuel + 1, srcva, len =>
    if len = 0 then (0, [])
    else
      let va0 := PGROUNDDOWN srcva
      let pa0 := walkaddr vm mm va0
      if pa0 = 0 then (-EINVAL, [])
      else
        let n := min (pageRest srcva) len
        let chunk := readBytes vm.byte (pa0 + (srcva - va0)) n
        let rest := copyFromUserLoop vm mm fuel (va0 + PGSIZE) (len - n)
        (rest.1, chunk ++ rest.2)

/-- `copy_from_user(mm, dst, srcva, len)`. -/
def copyFromUser (vm : Vm) (mm : Mm) (srcva : Uint64) (len : Nat) : Int × List Byte :=
  copyFromUserLoop vm mm len srcva len

/-- The loop of `copystr_from_user`. -/
def copystrFromUserLoop (vm : Vm) (mm : Mm) : Nat → Uint64 → Nat → Int × List Byte
  | 0, _, _ => (-1, [])
  | fuel + 1, srcva, max =>
    if max = 0 then (-1, [])
    else
      let va0 := PGROUNDDOWN srcva
      let pa0 := walkaddr vm mm va0
      if pa0 = 0 then (-EINVAL, [])
      else
        let n := min (pageRest srcva) max
        let chunk := readBytes vm.byte (pa0 + (srcva - va0)) n
        let str := chunk.takeWhile (· ≠ 0)
        if str.length < n then (0, str ++ [0])
        else
          let rest := copystrFromUserLoop vm mm fuel (va0 + PGSIZE) (max - n)
          (rest.1, chunk ++ rest.2)

/-- `copystr_from_user(mm, dst, srcva, max)`: its result and the bytes it stored. -/
def copystrFromUser (vm : Vm) (mm : Mm) (srcva : Uint64) (max : Nat) : Int × List Byte :=
  copystrFromUserLoop vm mm max srcva max

/-! ## The size of a turn -/

theorem pageRest_offset {p : Uint64} (hp : PageStart p) {i : Nat} (hi : i < 4096) :
    pageRest (p + BitVec.ofNat 64 i) = 4096 - i := by
  have hoff : p + BitVec.ofNat 64 i - p = BitVec.ofNat 64 i := by
    rw [BitVec.add_comm, BitVec.add_sub_cancel]
  rw [pageRest, PGROUNDDOWN_add hp hi, hoff, BitVec.toNat_sub, BitVec.toNat_ofNat]
  have hsize : PGSIZE.toNat = 4096 := rfl
  omega

theorem pageRest_pos (va : Uint64) : 0 < pageRest va := by
  obtain ⟨i, hi, hva⟩ := exists_offset va
  rw [hva, pageRest_offset (pageStart_PGROUNDDOWN va) hi]
  omega

theorem pageRest_le (va : Uint64) : pageRest va ≤ 4096 := by
  obtain ⟨i, hi, hva⟩ := exists_offset va
  rw [hva, pageRest_offset (pageStart_PGROUNDDOWN va) hi]
  omega

/-- The addresses of one turn lie in the page of the first. -/
theorem PGROUNDDOWN_of_lt_pageRest {va : Uint64} {j : Nat} (hj : j < pageRest va) :
    PGROUNDDOWN (va + BitVec.ofNat 64 j) = PGROUNDDOWN va := by
  obtain ⟨i, hi, hva⟩ := exists_offset va
  have hpage := pageStart_PGROUNDDOWN va
  rw [hva, pageRest_offset hpage hi] at hj
  have hsum : va + BitVec.ofNat 64 j = PGROUNDDOWN va + BitVec.ofNat 64 (i + j) := by
    rw [BitVec.ofNat_add, ← BitVec.add_assoc, ← hva]
  rw [hsum, PGROUNDDOWN_add hpage (by omega)]

/-- The turn after a full page starts at the next page. -/
theorem add_pageRest (va : Uint64) :
    PGROUNDDOWN va + PGSIZE = va + BitVec.ofNat 64 (pageRest va) := by
  obtain ⟨i, hi, hva⟩ := exists_offset va
  have hpage := pageStart_PGROUNDDOWN va
  have hrest : pageRest va = 4096 - i := by rw [hva, pageRest_offset hpage hi]
  have hsum : BitVec.ofNat 64 i + BitVec.ofNat 64 (4096 - i) = PGSIZE := by
    rw [← BitVec.ofNat_add, Nat.add_sub_cancel' hi.le]
    rfl
  calc PGROUNDDOWN va + PGSIZE
      = PGROUNDDOWN va + (BitVec.ofNat 64 i + BitVec.ofNat 64 (4096 - i)) := by rw [hsum]
    _ = va + BitVec.ofNat 64 (pageRest va) := by rw [← BitVec.add_assoc, ← hva, hrest]

/-- The physical addresses of one turn. -/
theorem userPa_of_lt_pageRest {vm : Vm} {mm : Mm} {va : Uint64} {j : Nat} (hj : j < pageRest va) :
    userPa vm mm (va + BitVec.ofNat 64 j) =
      if walkaddr vm mm (PGROUNDDOWN va) = 0 then none
      else some (walkaddr vm mm (PGROUNDDOWN va) + (va - PGROUNDDOWN va) + BitVec.ofNat 64 j) := by
  have hoff : va + BitVec.ofNat 64 j - PGROUNDDOWN va
      = va - PGROUNDDOWN va + BitVec.ofNat 64 j := by grind
  simp only [userPa, PGROUNDDOWN_of_lt_pageRest hj, hoff, BitVec.add_assoc]

/-- The bytes of memory after the store of one turn. -/
theorem memmove_chunk {vm : Vm} {mm : Mm} {dstva a : Uint64} {src : List Byte}
    (hpa : walkaddr vm mm (PGROUNDDOWN dstva) ≠ 0) :
    let pa := walkaddr vm mm (PGROUNDDOWN dstva) + (dstva - PGROUNDDOWN dstva)
    let chunk := src.take (min (pageRest dstva) src.length)
    memmove vm.byte pa chunk a = vm.byte a ∨
      ∃ (j : Nat) (hj : j < src.length), userPa vm mm (dstva + BitVec.ofNat 64 j) = some a ∧
        memmove vm.byte pa chunk a = src[j] := by
  intro pa chunk
  by_cases hin : (a - pa).toNat < chunk.length
  · have hlen : chunk.length = min (pageRest dstva) src.length := by
      simp only [chunk, List.length_take]
      omega
    have hsum : pa + BitVec.ofNat 64 (a - pa).toNat = a := add_toNat_sub
    refine Or.inr ⟨(a - pa).toNat, by omega, ?_, ?_⟩
    · rw [userPa_of_lt_pageRest (by omega), if_neg hpa]
      exact congrArg some hsum
    · have hstore := @memmove_offset vm.byte pa _ _ hin (a - pa).isLt
      rw [hsum] at hstore
      rw [hstore]
      exact List.getElem_take
  · exact Or.inl (memmove_of_le (Nat.not_lt.1 hin))

/-! ## `copy_to_user` -/

theorem copyToUserLoop_succ_fuel {mm : Mm} {fuel : Nat} {vm : Vm} {dstva : Uint64}
    {src : List Byte} (h : src.length ≤ fuel) :
    copyToUserLoop mm (fuel + 1) vm dstva src = copyToUserLoop mm fuel vm dstva src := by
  induction fuel generalizing vm dstva src with
  | zero => simp [copyToUserLoop, Nat.le_zero.1 h]
  | succ fuel ih =>
    rw [copyToUserLoop, copyToUserLoop]
    have hpos := pageRest_pos dstva
    split
    · rfl
    · rename_i hne
      dsimp only
      split
      · rfl
      · exact ih (by rw [List.length_drop]; omega)

theorem copyToUserLoop_of_le {mm : Mm} {fuel : Nat} {vm : Vm} {dstva : Uint64} {src : List Byte}
    (h : src.length ≤ fuel) : copyToUserLoop mm fuel vm dstva src = copyToUser vm mm dstva
    src := by
  obtain ⟨k, rfl⟩ := Nat.exists_eq_add_of_le h
  induction k with
  | zero => rfl
  | succ k ih =>
    rw [Nat.add_succ, copyToUserLoop_succ_fuel (Nat.le_add_right _ _)]
    exact ih (Nat.le_add_right _ _)

@[simp] theorem copyToUser_nil (vm : Vm) (mm : Mm) (dstva : Uint64) :
    copyToUser vm mm dstva [] = (0, vm) := rfl

/-- One turn of the loop of `copy_to_user`. -/
theorem copyToUser_eq {vm : Vm} {mm : Mm} {dstva : Uint64} {src : List Byte}
    (hsrc : src ≠ []) :
    copyToUser vm mm dstva src =
      if walkaddr vm mm (PGROUNDDOWN dstva) = 0 then (-EINVAL, vm)
      else
        copyToUser
          (vm.store (walkaddr vm mm (PGROUNDDOWN dstva) + (dstva - PGROUNDDOWN dstva))
            (src.take (min (pageRest dstva) src.length)))
          mm (PGROUNDDOWN dstva + PGSIZE) (src.drop (min (pageRest dstva) src.length)) := by
  have hlen : src.length ≠ 0 := by simpa using hsrc
  have hpos := pageRest_pos dstva
  obtain ⟨n, hn⟩ := Nat.exists_eq_succ_of_ne_zero hlen
  have hfuel : copyToUser vm mm dstva src = copyToUserLoop mm (n + 1) vm dstva src := by
    rw [copyToUser, hn]
  rw [hfuel, copyToUserLoop, if_neg hlen]
  dsimp only
  split
  · rfl
  · exact copyToUserLoop_of_le (by rw [List.length_drop]; omega)

/-- A copy to addresses of one page writes all bytes or fails without writing any. -/
theorem copyToUser_onePage {vm : Vm} {mm : Mm} {dstva : Uint64} {src : List Byte}
    (hsrc : src ≠ []) (hfit : src.length ≤ pageRest dstva) :
    copyToUser vm mm dstva src =
      if walkaddr vm mm (PGROUNDDOWN dstva) = 0 then (-EINVAL, vm)
      else (0, vm.store (walkaddr vm mm (PGROUNDDOWN dstva) + (dstva - PGROUNDDOWN dstva))
        src) := by
  rw [copyToUser_eq hsrc, Nat.min_eq_right hfit, List.take_length, List.drop_length,
    copyToUser_nil]

/-- **The rule for `copy_to_user`**: what holds of memory before the call and is kept by
every store of source bytes to the user page they go to holds after it. -/
theorem copyToUser_induct (mm : Mm) {I : Vm → Uint64 → List Byte → Prop}
    (hturn : ∀ vm dstva src, src ≠ [] → walkaddr vm mm (PGROUNDDOWN dstva) ≠ 0 →
      I (vm.store (walkaddr vm mm (PGROUNDDOWN dstva) + (dstva - PGROUNDDOWN dstva))
          (src.take (min (pageRest dstva) src.length)))
        (PGROUNDDOWN dstva + PGSIZE) (src.drop (min (pageRest dstva) src.length)) →
      I vm dstva src)
    (hstop : ∀ vm dstva src,
      src = [] ∨ walkaddr vm mm (PGROUNDDOWN dstva) = 0 → I vm dstva src)
    (vm : Vm) (dstva : Uint64) (src : List Byte) : I vm dstva src := by
  induction hn : src.length using Nat.strong_induction_on generalizing vm dstva src with
  | _ n ih =>
    by_cases hsrc : src = []
    · exact hstop vm dstva src (Or.inl hsrc)
    by_cases hpa : walkaddr vm mm (PGROUNDDOWN dstva) = 0
    · exact hstop vm dstva src (Or.inr hpa)
    have hlen : 0 < src.length := List.length_pos_iff.2 hsrc
    have hpos := pageRest_pos dstva
    refine hturn vm dstva src hsrc hpa (ih _ ?_ _ _ _ rfl)
    rw [List.length_drop]
    omega

/-- What `copy_to_user` leaves alone: everything but bytes. -/
theorem copyToUser_frame (vm : Vm) (mm : Mm) (dstva : Uint64) (src : List Byte) :
    ∃ byte, (copyToUser vm mm dstva src).2 = { vm with byte := byte } := by
  induction vm, dstva, src using copyToUser_induct mm with
  | hturn vm dstva src hsrc hpa ih =>
    rw [copyToUser_eq hsrc, if_neg hpa]
    simpa only [Vm.store] using ih
  | hstop vm dstva src h =>
    refine ⟨vm.byte, ?_⟩
    by_cases hsrc : src = []
    · rw [hsrc, copyToUser_nil]
    · rw [copyToUser_eq hsrc, if_pos (h.resolve_left hsrc)]

@[simp] theorem copyToUser_pte (vm : Vm) (mm : Mm) (dstva : Uint64) (src : List Byte) :
    (copyToUser vm mm dstva src).2.pte = vm.pte := by
  obtain ⟨byte, h⟩ := copyToUser_frame vm mm dstva src
  rw [h]

/-- **Every byte of memory** is unchanged by `copy_to_user`, or it lies behind one of the
destination addresses and holds the source byte that belongs there. -/
theorem copyToUser_byte (vm : Vm) (mm : Mm) (dstva : Uint64) (src : List Byte) (a : Uint64) :
    (copyToUser vm mm dstva src).2.byte a = vm.byte a ∨
      ∃ (j : Nat) (hj : j < src.length), userPa vm mm (dstva + BitVec.ofNat 64 j) = some a ∧
        (copyToUser vm mm dstva src).2.byte a = src[j] := by
  induction vm, dstva, src using copyToUser_induct mm with
  | hstop vm dstva src h =>
    refine Or.inl ?_
    by_cases hsrc : src = []
    · rw [hsrc, copyToUser_nil]
    · rw [copyToUser_eq hsrc, if_pos (h.resolve_left hsrc)]
  | hturn vm dstva src hsrc hpa ih =>
    rw [copyToUser_eq hsrc, if_neg hpa]
    rcases ih with hkeep | ⟨j, hj, hdst, hbyte⟩
    · rw [hkeep, Vm.store_byte]
      exact memmove_chunk hpa
    · -- a byte of a later turn; the first one was then a full page
      rw [List.length_drop] at hj
      have hfull : min (pageRest dstva) src.length = pageRest dstva := by omega
      refine Or.inr ⟨pageRest dstva + j, by omega, ?_, ?_⟩
      · rw [userPa_congr (Vm.store_pte _ _ _), add_pageRest, BitVec.add_assoc,
          ← BitVec.ofNat_add] at hdst
        exact hdst
      · rw [hbyte, List.getElem_drop]
        simp only [hfull]

/-- A copy that succeeds goes to valid user addresses. -/
theorem copyToUser_mapped (vm : Vm) (mm : Mm) (dstva : Uint64) (src : List Byte)
    (h : ¬ (copyToUser vm mm dstva src).1 < 0) {j : Nat} (hj : j < src.length) :
    userPa vm mm (dstva + BitVec.ofNat 64 j) ≠ none := by
  induction vm, dstva, src using copyToUser_induct mm generalizing j with
  | hstop vm dstva src hstop =>
    have hsrc : src ≠ [] := by
      rintro rfl
      exact absurd hj (Nat.not_lt_zero j)
    rw [copyToUser_eq hsrc, if_pos (hstop.resolve_left hsrc)] at h
    have hneg : -EINVAL < 0 := by decide
    exact absurd hneg h
  | hturn vm dstva src hsrc hpa ih =>
    rw [copyToUser_eq hsrc, if_neg hpa] at h
    by_cases hin : j < pageRest dstva
    · rw [userPa_of_lt_pageRest hin, if_neg hpa]
      exact Option.some_ne_none _
    · have hfull : min (pageRest dstva) src.length = pageRest dstva := by omega
      have hlater := ih h (j := j - pageRest dstva) (by rw [List.length_drop, hfull]; omega)
      rwa [userPa_congr (Vm.store_pte _ _ _), add_pageRest, BitVec.add_assoc, ← BitVec.ofNat_add,
        Nat.add_sub_cancel' (Nat.not_lt.1 hin)] at hlater

/-! ## `copy_from_user` -/

theorem copyFromUserLoop_succ_fuel {vm : Vm} {mm : Mm} {fuel : Nat} {srcva : Uint64} {len : Nat}
    (h : len ≤ fuel) :
    copyFromUserLoop vm mm (fuel + 1) srcva len = copyFromUserLoop vm mm fuel srcva len := by
  induction fuel generalizing srcva len with
  | zero => simp [copyFromUserLoop, Nat.le_zero.1 h]
  | succ fuel ih =>
    rw [copyFromUserLoop, copyFromUserLoop]
    have hpos := pageRest_pos srcva
    split
    · rfl
    · dsimp only
      split
      · rfl
      · rw [ih (by omega)]

theorem copyFromUserLoop_of_le {vm : Vm} {mm : Mm} {fuel : Nat} {srcva : Uint64} {len : Nat}
    (h : len ≤ fuel) : copyFromUserLoop vm mm fuel srcva len = copyFromUser vm mm srcva len := by
  obtain ⟨k, rfl⟩ := Nat.exists_eq_add_of_le h
  induction k with
  | zero => rfl
  | succ k ih =>
    rw [Nat.add_succ, copyFromUserLoop_succ_fuel (Nat.le_add_right _ _)]
    exact ih (Nat.le_add_right _ _)

@[simp] theorem copyFromUser_zero (vm : Vm) (mm : Mm) (srcva : Uint64) :
    copyFromUser vm mm srcva 0 = (0, []) := rfl

/-- The bytes one turn of `copy_from_user` copies. -/
def userChunk (vm : Vm) (mm : Mm) (srcva : Uint64) (n : Nat) : List Byte :=
  readBytes vm.byte (walkaddr vm mm (PGROUNDDOWN srcva) + (srcva - PGROUNDDOWN srcva)) n

/-- One turn of the loop of `copy_from_user`. -/
theorem copyFromUser_eq {vm : Vm} {mm : Mm} {srcva : Uint64} {len : Nat} (hlen : len ≠ 0) :
    copyFromUser vm mm srcva len =
      if walkaddr vm mm (PGROUNDDOWN srcva) = 0 then (-EINVAL, [])
      else
        let n := min (pageRest srcva) len
        let rest := copyFromUser vm mm (PGROUNDDOWN srcva + PGSIZE) (len - n)
        (rest.1, userChunk vm mm srcva n ++ rest.2) := by
  have hpos := pageRest_pos srcva
  obtain ⟨n, hn⟩ := Nat.exists_eq_succ_of_ne_zero hlen
  have hfuel : copyFromUser vm mm srcva len = copyFromUserLoop vm mm (n + 1) srcva len := by
    rw [copyFromUser, hn]
  rw [hfuel, copyFromUserLoop, if_neg hlen]
  dsimp only
  split
  · rfl
  · rw [copyFromUserLoop_of_le (by omega), userChunk]

/-- What `copy_from_user` returns. -/
theorem copyFromUser_result (vm : Vm) (mm : Mm) (srcva : Uint64) (len : Nat) :
    ((copyFromUser vm mm srcva len).1 = 0 ∧ (copyFromUser vm mm srcva len).2.length = len) ∨
      ((copyFromUser vm mm srcva len).1 = -EINVAL ∧
        (copyFromUser vm mm srcva len).2.length < len) := by
  induction len using Nat.strong_induction_on generalizing srcva with
  | _ len ih =>
    by_cases hlen : len = 0
    · subst hlen
      exact Or.inl ⟨rfl, rfl⟩
    rw [copyFromUser_eq hlen]
    split
    · exact Or.inr ⟨rfl, by simpa using Nat.pos_of_ne_zero hlen⟩
    · have hpos := pageRest_pos srcva
      simp only [List.length_append, userChunk, length_readBytes]
      rcases ih (len - min (pageRest srcva) len) (by omega) (PGROUNDDOWN srcva + PGSIZE) with
        ⟨hret, hcount⟩ | ⟨hret, hcount⟩
      · exact Or.inl ⟨hret, by omega⟩
      · exact Or.inr ⟨hret, by omega⟩

/-- **Every byte `copy_from_user` copies** is the byte of user memory at its address. -/
theorem copyFromUser_getElem {vm : Vm} {mm : Mm} {srcva : Uint64} {len j : Nat}
    (hj : j < (copyFromUser vm mm srcva len).2.length) :
    userByte vm mm (srcva + BitVec.ofNat 64 j) = some (copyFromUser vm mm srcva len).2[j] := by
  induction len using Nat.strong_induction_on generalizing srcva j with
  | _ len ih =>
    by_cases hlen : len = 0
    · subst hlen
      exact absurd hj (Nat.not_lt_zero j)
    have heq := @copyFromUser_eq vm mm srcva len hlen
    by_cases hpa : walkaddr vm mm (PGROUNDDOWN srcva) = 0
    · rw [if_pos hpa] at heq
      simp only [heq, List.length_nil] at hj
      exact absurd hj (Nat.not_lt_zero j)
    rw [if_neg hpa] at heq
    have hpos := pageRest_pos srcva
    simp only [heq]
    by_cases hfirst : j < min (pageRest srcva) len
    · have hlt : j < (userChunk vm mm srcva (min (pageRest srcva) len)).length := by
        rwa [userChunk, length_readBytes]
      rw [List.getElem_append_left hlt, userByte, userPa_of_lt_pageRest (by omega), if_neg hpa,
        Option.map_some]
      simp only [userChunk, getElem_readBytes]
    · -- a byte of a later turn; the first one was then a full page
      have hcount : (userChunk vm mm srcva (min (pageRest srcva) len)).length
          = min (pageRest srcva) len := by rw [userChunk, length_readBytes]
      have hle := copyFromUser_result vm mm (PGROUNDDOWN srcva + PGSIZE)
        (len - min (pageRest srcva) len)
      simp only [heq, List.length_append, hcount] at hj
      have hfull : min (pageRest srcva) len = pageRest srcva := by omega
      have hva : srcva + BitVec.ofNat 64 j
          = PGROUNDDOWN srcva + PGSIZE + BitVec.ofNat 64 (j - min (pageRest srcva) len) := by
        rw [add_pageRest, BitVec.add_assoc, ← BitVec.ofNat_add, hfull,
          Nat.add_sub_cancel' (by omega)]
      rw [List.getElem_append_right (by omega), hva]
      simp only [hcount]
      exact ih _ (by omega) (by omega)

/-- `copy_from_user` fails only at an address no user page is mapped at. -/
theorem copyFromUser_stop {vm : Vm} {mm : Mm} {srcva : Uint64} {len : Nat}
    (h : (copyFromUser vm mm srcva len).1 ≠ 0) :
    userByte vm mm (srcva + BitVec.ofNat 64 (copyFromUser vm mm srcva len).2.length) = none := by
  induction len using Nat.strong_induction_on generalizing srcva with
  | _ len ih =>
    by_cases hlen : len = 0
    · subst hlen
      exact absurd rfl h
    have heq := @copyFromUser_eq vm mm srcva len hlen
    have hpos := pageRest_pos srcva
    by_cases hpa : walkaddr vm mm (PGROUNDDOWN srcva) = 0
    · rw [if_pos hpa] at heq
      rw [heq, List.length_nil, userByte, userPa_of_lt_pageRest hpos, if_pos hpa]
      rfl
    rw [if_neg hpa] at heq
    simp only [heq] at h
    simp only [heq, List.length_append, userChunk, length_readBytes]
    -- the turn that fails is a later one, so the first one was a full page
    have hfull : min (pageRest srcva) len = pageRest srcva := by
      by_contra hne
      refine h ?_
      have hlast : len - min (pageRest srcva) len = 0 := by omega
      rw [hlast, copyFromUser_zero]
    have hrest := ih (len - min (pageRest srcva) len) (by omega) h
    have hva (k : Nat) : srcva + BitVec.ofNat 64 (pageRest srcva + k)
        = PGROUNDDOWN srcva + PGSIZE + BitVec.ofNat 64 k := by
      rw [add_pageRest, BitVec.add_assoc, ← BitVec.ofNat_add]
    rw [hfull] at hrest ⊢
    rw [hva]
    exact hrest

/-- **Bytes that user memory holds are what `copy_from_user` copies.** -/
theorem copyFromUser_eq_of_userByte {vm : Vm} {mm : Mm} {srcva : Uint64} {bs : List Byte}
    (h : ∀ (j : Nat) (hj : j < bs.length),
      userByte vm mm (srcva + BitVec.ofNat 64 j) = some bs[j]) :
    copyFromUser vm mm srcva bs.length = (0, bs) := by
  have hbyte {j : Nat} := @copyFromUser_getElem vm mm srcva bs.length j
  rcases copyFromUser_result vm mm srcva bs.length with ⟨hret, hlen⟩ | ⟨hret, hlen⟩
  · refine Prod.ext hret (List.ext_getElem hlen fun j hj hj' => ?_)
    have := hbyte hj
    rw [h j hj', Option.some.injEq] at this
    exact this.symm
  · have hstop := @copyFromUser_stop vm mm srcva bs.length (by rw [hret]; decide)
    rw [h _ hlen] at hstop
    exact absurd hstop (by simp)

end SignalOS
