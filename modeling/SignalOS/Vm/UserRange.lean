import SignalOS.Vm.Bytewise
import SignalOS.Vm.Ownership

/-!
# Ranges of user memory

The functions of `uaccess.c` as accesses to one byte after the other.

* `ValidUserPage`, `UserRange` — a page that the user may access; a range of such pages
  whose addresses do not wrap.
* `userStore`, `userLoad` — the byte-wise accesses.
* `copy_bytewise` — **`copy_to_user` and `copy_from_user` are byte-wise accesses to the
  range in front of the first page that is not valid**.
* `copystrTurns` — `copystr_from_user` with both of its loops and the pages it asks for.
* `StrCopy` — a string is copied byte by byte.
* `copystr_exact` — **`copystr_from_user` copies up to the first NUL, and asks for no
  page after it**.
-/

namespace SignalOS

variable {vm vm' : Vm} {mm : Mm} {va : Uint64} {b : Byte} {bs src : List Byte} {n len : Nat}

/-- A page that is mapped for the user.  The frame 0 stands for a page that is not mapped. -/
def ValidUserPage (vm : Vm) (mm : Mm) (page : Uint64) : Prop :=
  IS_USER_VA page = true ∧ ∃ p, p ≠ 0 ∧ frameAt vm.pte mm.pgt (vpn page) = some p

/-- The addresses of the `n` bytes at `va` do not wrap, and all their pages are valid. -/
def UserRange (vm : Vm) (mm : Mm) (va : Uint64) (n : Nat) : Prop :=
  ∀ i < n, va.toNat + i < 2 ^ 64 ∧ ValidUserPage vm mm (PGROUNDDOWN (va + BitVec.ofNat 64 i))

/-- The bytes of memory after `src` was stored at `va`, byte by byte through the page table. -/
def userStore (vm : Vm) (mm : Mm) : Uint64 → List Byte → (Uint64 → Byte) → Uint64 → Byte
  | _, [], m => m
  | va, b :: bs, m => userStore vm mm (va + 1) bs (Function.update m ((userPa vm mm va).getD 0) b)

/-- The `n` bytes at `va`, read byte by byte through the page table. -/
def userLoad (vm : Vm) (mm : Mm) (va : Uint64) (n : Nat) : List Byte :=
  (List.range n).map fun i => vm.byte ((userPa vm mm (va + BitVec.ofNat 64 i)).getD 0)

theorem userPa_ne_none : userPa vm mm va ≠ none ↔ ValidUserPage vm mm (PGROUNDDOWN va) := by
  rw [ne_eq, userPa_eq_none, ValidUserPage]
  cases huser : IS_USER_VA (PGROUNDDOWN va) with
  | false => simp [walkaddr_of_not_user huser]
  | true =>
    rw [walkaddr_frameAt huser]
    cases frameAt vm.pte mm.pgt (vpn (PGROUNDDOWN va)) with
    | none => simp
    | some p => simp

theorem userRange_congr (hpte : vm'.pte = vm.pte) :
    UserRange vm' mm va n ↔ UserRange vm mm va n := by
  simp only [UserRange, ValidUserPage, hpte]

/-- After a valid page the addresses do not wrap. -/
theorem toNat_succ_of_valid (h : ValidUserPage vm mm (PGROUNDDOWN va)) :
    (va + 1).toNat = va.toNat + 1 := by
  have huser := of_decide_eq_true h.1
  have hmax : MAXVA.toNat = 2 ^ 38 := rfl
  rw [BitVec.le_def, hmax, toNat_PGROUNDDOWN] at huser
  have hone : (1 : Uint64).toNat = 1 := rfl
  rw [BitVec.toNat_add, hone]
  omega

theorem userRange_zero : UserRange vm mm va 0 := fun i hi => absurd hi (Nat.not_lt_zero i)

/-- One byte, then the rest. -/
theorem userRange_succ :
    UserRange vm mm va (n + 1) ↔ ValidUserPage vm mm (PGROUNDDOWN va) ∧
      UserRange vm mm (va + 1) n := by
  have hzero : va + BitVec.ofNat 64 0 = va := by simp
  constructor
  · intro h
    have hfirst := (h 0 (Nat.succ_pos n)).2
    rw [hzero] at hfirst
    refine ⟨hfirst, fun i hi => ?_⟩
    obtain ⟨hlt, hvalid⟩ := h (i + 1) (by omega)
    rw [toNat_succ_of_valid hfirst, ← ofNat_succ_add]
    exact ⟨by omega, hvalid⟩
  · rintro ⟨hfirst, hrest⟩ i hi
    cases i with
    | zero =>
      rw [hzero]
      exact ⟨va.isLt, hfirst⟩
    | succ i =>
      obtain ⟨hlt, hvalid⟩ := hrest i (by omega)
      rw [toNat_succ_of_valid hfirst] at hlt
      rw [ofNat_succ_add]
      exact ⟨by omega, hvalid⟩

/-- The copy gets as far as byte `i` if the range up to it is valid. -/
theorem reached_iff {i : Nat} : Reached vm mm va i ↔ UserRange vm mm va (i + 1) := by
  induction i generalizing va with
  | zero =>
    rw [userRange_succ, and_iff_left userRange_zero, ← userPa_ne_none]
    constructor
    · intro h
      simpa using h 0 le_rfl
    · intro h j hj
      rw [Nat.le_zero.1 hj]
      simpa using h
  | succ i ih => rw [reached_succ, userRange_succ, ih, userPa_ne_none]

theorem UserRange.mono {m : Nat} (h : UserRange vm mm va n) (hle : m ≤ n) : UserRange vm mm va m :=
  fun i hi => h i (by omega)

/-! ## Copies -/

/-- Of `len` bytes at `va`, the first `n` were transferred: all of them, or those in front of the
first page that is not valid. -/
structure Transfer (vm : Vm) (mm : Mm) (va : Uint64) (len : Nat) (ret : Int) (n : Nat) : Prop where
  le : n ≤ len
  valid : UserRange vm mm va n
  ends : ret = 0 ∧ n = len ∨ ret = -EINVAL ∧ n < len ∧ ¬ UserRange vm mm va (n + 1)

theorem Transfer.ret_eq {ret : Int} (h : Transfer vm mm va len ret n) :
    ret = 0 ↔ UserRange vm mm va len := by
  rcases h.ends with ⟨hret, hn⟩ | ⟨hret, hlt, hstop⟩
  · exact iff_of_true hret (hn ▸ h.valid)
  · refine iff_of_false (by rw [hret]; decide) fun hrange => hstop (hrange.mono hlt)

/-- **`copy_to_user` stores byte by byte.** -/
theorem copyToUser_bytewise (vm : Vm) (mm : Mm) (va : Uint64) (src : List Byte) :
    ∃ n, Transfer vm mm va src.length (copyToUser vm mm va src).1 n ∧
      (copyToUser vm mm va src).2 =
        { vm with byte := userStore vm mm va (src.take n) vm.byte } := by
  induction src generalizing vm va with
  | nil => exact ⟨0, ⟨le_rfl, userRange_zero, .inl ⟨rfl, rfl⟩⟩, rfl⟩
  | cons b bs ih =>
    rw [copyToUser_cons]
    cases hpa : userPa vm mm va with
    | none =>
      refine ⟨0, ⟨Nat.zero_le _, userRange_zero, .inr ⟨rfl, Nat.succ_pos _, fun hrange => ?_⟩⟩,
        rfl⟩
      exact userPa_ne_none.2 (userRange_succ.1 hrange).1 hpa
    | some a =>
      have hvalid : ValidUserPage vm mm (PGROUNDDOWN va) := userPa_ne_none.1 (by rw [hpa]; simp)
      have hpte := Vm.store_pte vm a [b]
      obtain ⟨n, hn, hmemory⟩ := ih (vm.store a [b]) (va + 1)
      refine ⟨n + 1, ⟨Nat.succ_le_succ hn.le, ?_, hn.ends.imp ?_ ?_⟩, ?_⟩
      · exact userRange_succ.2 ⟨hvalid, (userRange_congr hpte).1 hn.valid⟩
      · exact fun ⟨hret, hlen⟩ => ⟨hret, by rw [hlen, List.length_cons]⟩
      · rintro ⟨hret, hlt, hstop⟩
        refine ⟨hret, Nat.succ_lt_succ hlt, fun hrange => hstop ?_⟩
        exact (userRange_congr hpte).2 (userRange_succ.1 hrange).2
      · have hstore (m : Uint64 → Byte) (va : Uint64) (bs : List Byte) :
            userStore (vm.store a [b]) mm va bs m = userStore vm mm va bs m := by
          induction bs generalizing m va with
          | nil => rfl
          | cons c cs ih' => rw [userStore, userStore, userPa_congr hpte, ih']
        show (copyToUser (vm.store a [b]) mm (va + 1) bs).2 = _
        rw [hmemory, List.take_succ_cons, userStore, hpa, hstore, Vm.store_byte, memmove_singleton]
        rfl

/-- **`copy_from_user` reads byte by byte.** -/
theorem copyFromUser_bytewise (vm : Vm) (mm : Mm) (va : Uint64) (len : Nat) :
    ∃ n, Transfer vm mm va len (copyFromUser vm mm va len).1 n ∧ (copyFromUser vm mm va len).2 =
      userLoad vm mm va n := by
  refine ⟨(copyFromUser vm mm va len).2.length, ⟨?_, ?_, ?_⟩, ?_⟩
  · rcases copyFromUser_result vm mm va len with ⟨-, hlen⟩ | ⟨-, hlt⟩
    · exact hlen.le
    · exact hlt.le
  · cases hn : (copyFromUser vm mm va len).2.length with
    | zero => exact userRange_zero
    | succ n =>
      have hlt : n < (copyFromUser vm mm va len).2.length := by omega
      exact reached_iff.1 (lt_length_copyFromUser.1 hlt).2
  · refine (copyFromUser_result vm mm va len).imp_right fun ⟨hret, hlt⟩ =>
      ⟨hret, hlt, fun hrange => ?_⟩
    exact absurd (lt_length_copyFromUser.2 ⟨hlt, reached_iff.2 hrange⟩) (lt_irrefl _)
  · refine List.ext_getElem (by simp [userLoad]) fun j hj hj' => ?_
    have hbyte := copyFromUser_getElem hj
    rw [userByte, Option.map_eq_some_iff] at hbyte
    obtain ⟨a, ha, hbyte⟩ := hbyte
    simp only [userLoad, List.getElem_map, List.getElem_range, ha, Option.getD_some]
    exact hbyte.symm

/-- **`copy_to_user` and `copy_from_user` are byte-wise accesses through the page table.**  They
return 0 if all pages of the range are valid and its addresses do not wrap; otherwise they transfer
the part in front of the first page that is not.  Nothing else changes. -/
theorem copy_bytewise (vm : Vm) (mm : Mm) (va : Uint64) :
    (∀ src : List Byte, ((copyToUser vm mm va src).1 = 0 ↔ UserRange vm mm va src.length) ∧
      ∃ n, Transfer vm mm va src.length (copyToUser vm mm va src).1 n ∧
        (copyToUser vm mm va src).2 =
          { vm with byte := userStore vm mm va (src.take n) vm.byte }) ∧
    ∀ len, ((copyFromUser vm mm va len).1 = 0 ↔ UserRange vm mm va len) ∧
      ∃ n, Transfer vm mm va len (copyFromUser vm mm va len).1 n ∧
        (copyFromUser vm mm va len).2 = userLoad vm mm va n := by
  refine ⟨fun src => ?_, fun len => ?_⟩
  · obtain ⟨n, hn, hmemory⟩ := copyToUser_bytewise vm mm va src
    exact ⟨hn.ret_eq, n, hn, hmemory⟩
  · obtain ⟨n, hn, hbytes⟩ := copyFromUser_bytewise vm mm va len
    exact ⟨hn.ret_eq, n, hn, hbytes⟩

/-- No two user addresses of an address space have one byte behind them. -/
theorem Good.userPa_inj {va' a : Uint64} (hgood : Good vm mm.pgt) (h : userPa vm mm va = some a)
    (h' : userPa vm mm va' = some a) : va = va' := by
  refine SignalOS.userPa_inj (fun va va' hne hsame => ?_) h h'
  have hframe {va : Uint64} (hne : walkaddr vm mm (PGROUNDDOWN va) ≠ 0) :
    IS_USER_VA (PGROUNDDOWN va) = true ∧
      frameAt vm.pte mm.pgt (vpn (PGROUNDDOWN va)) = some (walkaddr vm mm (PGROUNDDOWN va)) := by
    obtain ⟨huser, p, hp, hframe⟩ := userPa_ne_none.1 fun hnone => hne (userPa_eq_none.1 hnone)
    refine ⟨huser, ?_⟩
    rw [walkaddr_frameAt huser, hframe]
    rfl
  obtain ⟨huser, hva⟩ := hframe hne
  obtain ⟨huser', hva'⟩ := hframe (hsame ▸ hne)
  rw [hsame] at hva
  exact vpn_inj huser huser' (pageStart_PGROUNDDOWN va) (pageStart_PGROUNDDOWN va')
    (hgood.frames _ _ _ hva hva')

/-- **After a copy to a valid range user memory holds what was copied.** -/
theorem copyToUser_holds (hgood : Good vm mm.pgt) (hrange : UserRange vm mm va src.length) :
    UserHolds (copyToUser vm mm va src).2 mm va src := by
  refine holdsAfter_iff.1 fun j hj => ?_
  have hreach : Reached vm mm va j := reached_iff.2 (hrange.mono hj)
  obtain ⟨a, ha⟩ := Option.ne_none_iff_exists'.1 (hreach j le_rfl)
  refine ⟨a, ha, .inl ⟨j, hj, ⟨hj, hreach, ha, fun n hn hlt _ hsame => ?_⟩, rfl⟩⟩
  have heq := congrArg BitVec.toNat (hgood.userPa_inj ha hsame)
  have hfit := (hrange n hn).1
  rw [BitVec.toNat_add, BitVec.toNat_add, BitVec.toNat_ofNat, BitVec.toNat_ofNat] at heq
  omega

/-! ## Strings -/

/-- The inner loop of `copystr_from_user` at the physical address `p`: whether it saw a NUL, the
bytes it stored, and what is left of `max`. -/
def copystrBytes (vm : Vm) : Nat → Nat → Uint64 → Bool × List Byte × Nat
  | 0, max, _ => (false, [], max)
  | n + 1, max, p =>
    if vm.byte p = 0 then (true, [0], max)
    else
      let rest := copystrBytes vm n (max - 1) (p + 1)
      (rest.1, vm.byte p :: rest.2.1, rest.2.2)

/-- The outer loop of `copystr_from_user`: its result, the bytes it stored and the pages it asked
`walkaddr` for.  `none` stands for a loop that `fuel` turns do not end. -/
def copystrTurns (vm : Vm) (mm : Mm) :
    Nat → Uint64 → Nat → Bool → Option (Int × List Byte × List Uint64)
  | 0, _, _, _ => none
  | fuel + 1, srcva, max, got_null =>
    if got_null = true then some (0, [], [])
    else if max = 0 then some (-1, [], [])
    else
      let va0 := PGROUNDDOWN srcva
      let pa0 := walkaddr vm mm va0
      if pa0 = 0 then some (-EINVAL, [], [va0])
      else
        let turn := copystrBytes vm (min (pageRest srcva) max) max (pa0 + (srcva - va0))
        (copystrTurns vm mm fuel (va0 + PGSIZE) turn.2.2 turn.1).map fun rest =>
          (rest.1, turn.2.1 ++ rest.2.1, va0 :: rest.2.2)

/-- A string of at most `max` bytes at `va`, copied byte by byte: the result and the bytes. -/
inductive StrCopy (vm : Vm) (mm : Mm) : Uint64 → Nat → Int → List Byte → Prop
  | full (va : Uint64) : StrCopy vm mm va 0 (-1) []
  | fault {va : Uint64} {max : Nat} (hinvalid : ¬ ValidUserPage vm mm (PGROUNDDOWN va)) :
      StrCopy vm mm va (max + 1) (-EINVAL) []
  | null {va : Uint64} {max : Nat} (hbyte : userByte vm mm va = some 0) :
    StrCopy vm mm va (max + 1) 0 [0]
  | char {va : Uint64} {max : Nat} {ret : Int} {b : Byte} {bs : List Byte}
      (hbyte : userByte vm mm va = some b) (hb : b ≠ 0)
      (hrest : StrCopy vm mm (va + 1) max ret bs) :
      StrCopy vm mm va (max + 1) ret (b :: bs)

/-- Byte `i` at `va` is a NUL, and the user may read it and all that is in front of it. -/
def NulAt (vm : Vm) (mm : Mm) (va : Uint64) (i : Nat) : Prop :=
  UserRange vm mm va (i + 1) ∧ userByte vm mm (va + BitVec.ofNat 64 i) = some 0

theorem valid_of_userByte (h : userByte vm mm va = some b) :
    ValidUserPage vm mm (PGROUNDDOWN va) := by
  rw [← userPa_ne_none]
  intro hnone
  rw [userByte_eq_none.2 hnone] at h
  cases h

theorem nulAt_zero : NulAt vm mm va 0 ↔ userByte vm mm va = some 0 := by
  have hzero : va + BitVec.ofNat 64 0 = va := by simp
  rw [NulAt, hzero, userRange_succ]
  exact ⟨fun h => h.2, fun h => ⟨⟨valid_of_userByte h, userRange_zero⟩, h⟩⟩

theorem nulAt_succ {i : Nat} :
    NulAt vm mm va (i + 1) ↔ ValidUserPage vm mm (PGROUNDDOWN va) ∧ NulAt vm mm (va + 1) i := by
  rw [NulAt, NulAt, userRange_succ, ofNat_succ_add, and_assoc]

theorem userLoad_succ (h : userByte vm mm va = some b) :
    userLoad vm mm va (n + 1) = b :: userLoad vm mm (va + 1) n := by
  obtain ⟨a, ha, hb⟩ := Option.map_eq_some_iff.1 h
  simp only [userLoad, List.range_succ_eq_map, List.map_cons, List.map_map, Function.comp_def,
    ofNat_succ_add]
  simp [ha, hb]

namespace StrCopy

variable {max : Nat} {ret : Int}

theorem of_zero (h : StrCopy vm mm va 0 ret bs) : ret = -1 ∧ bs = [] := by
  cases h
  exact ⟨rfl, rfl⟩

theorem length_le (h : StrCopy vm mm va max ret bs) : bs.length ≤ max := by
  induction h with
  | full => exact le_rfl
  | fault => exact Nat.zero_le _
  | null => exact Nat.succ_le_succ (Nat.zero_le _)
  | char _ _ _ ih => exact Nat.succ_le_succ ih

/-- The copy succeeds with the bytes up to the first NUL. -/
theorem text (h : StrCopy vm mm va max ret bs) (hret : ret = 0) :
    ∃ i < max, NulAt vm mm va i ∧ (∀ j < i, ¬ NulAt vm mm va j) ∧
      bs = userLoad vm mm va (i + 1) := by
  induction h with
  | full => exact absurd hret (by decide)
  | fault => exact absurd hret (by decide)
  | null hbyte =>
    refine ⟨0, Nat.succ_pos _, nulAt_zero.2 hbyte, fun j hj => absurd hj (Nat.not_lt_zero j), ?_⟩
    rw [userLoad_succ hbyte]
    rfl
  | char hbyte hb _ ih =>
    obtain ⟨i, hi, hnull, hfirst, hbs⟩ := ih hret
    refine ⟨i + 1, Nat.succ_lt_succ hi, nulAt_succ.2 ⟨valid_of_userByte hbyte, hnull⟩,
      fun j hj => ?_, ?_⟩
    · cases j with
      | zero =>
        rw [nulAt_zero, hbyte]
        exact fun hzero => hb (Option.some.inj hzero)
      | succ j => exact fun hj' => hfirst j (by omega) (nulAt_succ.1 hj').2
    · rw [userLoad_succ hbyte, ← hbs]

/-- The copy fails only without a NUL in its range. -/
theorem ret_eq_of_nulAt (h : StrCopy vm mm va max ret bs) {i : Nat} (hi : i < max)
    (hnull : NulAt vm mm va i) :
    ret = 0 := by
  induction h generalizing i with
  | full => exact absurd hi (Nat.not_lt_zero i)
  | fault hinvalid => exact absurd (userRange_succ.1 hnull.1).1 hinvalid
  | null => rfl
  | char hbyte hb _ ih =>
    cases i with
    | zero =>
      rw [nulAt_zero, hbyte] at hnull
      exact absurd (Option.some.inj hnull) hb
    | succ i => exact ih (by omega) (nulAt_succ.1 hnull).2

/-- Byte `j` was looked at: it was copied, or its page is the one that is not valid. -/
def Looked (ret : Int) (bs : List Byte) (j : Nat) : Prop :=
  j < bs.length ∨ ret = -EINVAL ∧ j = bs.length

theorem Looked.succ {j : Nat} : Looked ret (b :: bs) (j + 1) ↔ Looked ret bs j := by
  simp only [Looked, List.length_cons, Nat.succ_lt_succ_iff, Nat.succ_inj]

/-- Nothing behind a NUL is looked at. -/
theorem looked_le (h : StrCopy vm mm va max ret bs) {i j : Nat}
    (hnull : userByte vm mm (va + BitVec.ofNat 64 i) = some 0) (hj : Looked ret bs j) : j ≤ i := by
  induction h generalizing i j with
  | full => simp [Looked, EINVAL] at hj
  | fault => simp [Looked] at hj; omega
  | null => simp [Looked, EINVAL] at hj; omega
  | char hbyte hb _ ih =>
    cases j with
    | zero => exact Nat.zero_le i
    | succ j =>
      cases i with
      | zero =>
        simp only [BitVec.ofNat_eq_ofNat, BitVec.add_zero, hbyte, Option.some.injEq] at hnull
        exact absurd hnull hb
      | succ i =>
        rw [ofNat_succ_add] at hnull
        exact Nat.succ_le_succ (ih hnull (Looked.succ.1 hj))

end StrCopy

theorem readBytes_succ (m : Uint64 → Byte) (p : Uint64) (n : Nat) :
    readBytes m p (n + 1) = m p :: readBytes m (p + 1) n := by
  simp only [readBytes, List.range_succ_eq_map, List.map_cons, List.map_map, Function.comp_def,
    ofNat_succ_add]
  simp

/-- The bytes the inner loop finds in front of a NUL in the `n` bytes at `p`. -/
def textAt (vm : Vm) (p : Uint64) (n : Nat) : List Byte :=
  (readBytes vm.byte p n).takeWhile (· ≠ 0)

/-- The inner loop stores the bytes up to the first NUL. -/
theorem copystrBytes_eq {max : Nat} {p : Uint64} (hn : n ≤ max) :
    copystrBytes vm n max p =
      if (textAt vm p n).length < n then (true, textAt vm p n ++ [0], max - (textAt vm p n).length)
      else (false, readBytes vm.byte p n, max - n) := by
  induction n generalizing max p with
  | zero => rfl
  | succ n ih =>
    rw [copystrBytes, textAt, readBytes_succ]
    by_cases hzero : vm.byte p = 0
    · simp [hzero]
    · have htext : (vm.byte p :: readBytes vm.byte (p + 1) n).takeWhile (· ≠ 0) =
          vm.byte p :: textAt vm (p + 1) n := List.takeWhile_cons_of_pos (decide_eq_true hzero)
      rw [if_neg hzero, ih (by omega), htext]
      simp only [List.length_cons, Nat.succ_lt_succ_iff]
      split
      · simp only [List.cons_append, Nat.sub_sub, Nat.add_comm 1]
      · simp only [Nat.sub_sub, Nat.add_comm 1]

/-- One turn of the outer loop: the bytes of one page that are no NUL, and the rest. -/
theorem StrCopy.append {max : Nat} {ret : Int} {chunk : List Byte} (hle : chunk.length ≤ max)
    (hchunk : ∀ (j : Nat) (hj : j < chunk.length),
      userByte vm mm (va + BitVec.ofNat 64 j) = some chunk[j] ∧ chunk[j] ≠ 0)
    (hrest : StrCopy vm mm (va + BitVec.ofNat 64 chunk.length) (max - chunk.length) ret bs) :
    StrCopy vm mm va max ret (chunk ++ bs) := by
  induction chunk generalizing va max with
  | nil => simpa using hrest
  | cons b chunk ih =>
    obtain ⟨m, rfl⟩ : ∃ m, max = m + 1 := ⟨max - 1, by simp at hle; omega⟩
    have hfirst := hchunk 0 (Nat.succ_pos _)
    simp only [BitVec.ofNat_eq_ofNat, BitVec.add_zero, List.getElem_cons_zero] at hfirst
    refine .char hfirst.1 hfirst.2 (ih (by simpa using hle) (fun j hj => ?_) ?_)
    · rw [← ofNat_succ_add]
      exact hchunk (j + 1) (by simpa using hj)
    · rw [← ofNat_succ_add]
      rwa [List.length_cons, Nat.add_sub_add_right] at hrest

/-- The bytes of one turn, as the loop reads them, are user bytes. -/
theorem userByte_turn {j : Nat} (hpa : walkaddr vm mm (PGROUNDDOWN va) ≠ 0)
    (hj : j < pageRest va) :
    userByte vm mm (va + BitVec.ofNat 64 j) =
      some (vm.byte (walkaddr vm mm (PGROUNDDOWN va) + (va - PGROUNDDOWN va) +
        BitVec.ofNat 64 j)) := by
  rw [userByte, userPa_of_lt_pageRest hj, if_neg hpa, Option.map_some]

theorem textAt_ne_zero {p : Uint64} : ∀ b ∈ textAt vm p n, b ≠ 0 :=
  fun b hb => of_decide_eq_true (List.all_eq_true.1 List.all_takeWhile b hb)

theorem textAt_whole {p : Uint64} (h : n ≤ (textAt vm p n).length) :
    textAt vm p n = readBytes vm.byte p n :=
  (List.takeWhile_prefix _).eq_of_length_le (by rw [length_readBytes]; exact h)

/-- The byte behind the text is a NUL. -/
theorem readBytes_textAt {p : Uint64} (h : (textAt vm p n).length < n) :
    vm.byte (p + BitVec.ofNat 64 (textAt vm p n).length) = 0 := by
  have htake := @List.takeWhile_eq_take_findIdx_not _ (readBytes vm.byte p n) (· ≠ 0)
  have hlen := congrArg List.length htake
  rw [List.length_take, length_readBytes] at hlen
  change (textAt vm p n).length = _ at hlen
  have hlt : List.findIdx (fun b : Byte => !decide (b ≠ 0)) (readBytes vm.byte p n) <
      (readBytes vm.byte p n).length := by
    rw [length_readBytes]
    omega
  have hbyte := List.findIdx_getElem (w := hlt)
  rw [getElem_readBytes hlt] at hbyte
  have heq : (textAt vm p n).length = List.findIdx (fun b : Byte => !decide (b ≠ 0))
      (readBytes vm.byte p n) := by
    omega
  rw [heq]
  simpa using hbyte

/-- A call of `copystr_from_user`: its result, the bytes it stored and the pages it asked for, with
any fuel that exceeds `max`. -/
structure StrRun (vm : Vm) (mm : Mm) (va : Uint64) (max : Nat) (ret : Int) (bs : List Byte)
    (pages : List Uint64) : Prop where
  copy : StrCopy vm mm va max ret bs
  turns : ∀ fuel > max, copystrTurns vm mm fuel va max false = some (ret, bs, pages)
  loop : ∀ fuel ≥ max, copystrFromUserLoop vm mm fuel va max = (ret, bs)
  looked : ∀ page ∈ pages, ∃ j, StrCopy.Looked ret bs j ∧
    page = PGROUNDDOWN (va + BitVec.ofNat 64 j)

namespace StrRun

variable {max : Nat}

theorem zero (vm : Vm) (mm : Mm) (va : Uint64) : StrRun vm mm va 0 (-1) [] [] where
  copy := .full va
  turns fuel hfuel := by
    obtain ⟨k, rfl⟩ := Nat.exists_eq_succ_of_ne_zero hfuel.ne'
    rfl
  loop fuel _ := by cases fuel <;> rfl
  looked page hpage := by cases hpage

/-- The first page is looked at. -/
theorem first_looked {ret : Int} (h : StrCopy.Looked ret bs 0) :
    ∀ page ∈ [PGROUNDDOWN va], ∃ j, StrCopy.Looked ret bs j ∧
      page = PGROUNDDOWN (va + BitVec.ofNat 64 j) := by
  intro page hpage
  rw [List.mem_singleton.1 hpage]
  exact ⟨0, h, by simp⟩

theorem fault (hmax : max ≠ 0) (hpa : walkaddr vm mm (PGROUNDDOWN va) = 0) :
    StrRun vm mm va max (-EINVAL) [] [PGROUNDDOWN va] where
  copy := by
    obtain ⟨m, rfl⟩ := Nat.exists_eq_succ_of_ne_zero hmax
    exact .fault fun hvalid => userPa_ne_none.2 hvalid (userPa_eq_none.2 hpa)
  turns fuel hfuel := by
    obtain ⟨k, rfl⟩ := Nat.exists_eq_succ_of_ne_zero hfuel.ne_bot
    rw [copystrTurns, if_neg Bool.false_ne_true, if_neg hmax]
    exact if_pos hpa
  loop fuel hfuel := by
    obtain ⟨k, rfl⟩ : ∃ k, fuel = k + 1 := ⟨fuel - 1, by omega⟩
    rw [copystrFromUserLoop, if_neg hmax]
    exact if_pos hpa
  looked := first_looked (.inr ⟨rfl, rfl⟩)

/-- The NUL is on the first page. -/
theorem null (hmax : max ≠ 0) (hpa : walkaddr vm mm (PGROUNDDOWN va) ≠ 0) :
    let p := walkaddr vm mm (PGROUNDDOWN va) + (va - PGROUNDDOWN va)
    let n := min (pageRest va) max
    (textAt vm p n).length < n → StrRun vm mm va max 0 (textAt vm p n ++ [0])
      [PGROUNDDOWN va] := by
  intro p n hnull
  have hpos := pageRest_pos va
  have hprefix : textAt vm p n <+: readBytes vm.byte p n := List.takeWhile_prefix _
  refine ⟨?_, fun fuel hfuel => ?_, fun fuel hfuel => ?_, first_looked (.inl ?_)⟩
  · refine StrCopy.append (by omega) (fun j hj => ⟨?_, textAt_ne_zero _ (List.getElem_mem hj)⟩) ?_
    · rw [userByte_turn hpa (by omega), hprefix.getElem hj, getElem_readBytes]
    · obtain ⟨m, hm⟩ : ∃ m, max - (textAt vm p n).length = m + 1 :=
        ⟨max - (textAt vm p n).length - 1, by omega⟩
      rw [hm]
      refine .null ?_
      rw [userByte_turn hpa (by omega), readBytes_textAt hnull]
  · obtain ⟨k, rfl⟩ : ∃ k, fuel = k + 2 := ⟨fuel - 2, by omega⟩
    rw [copystrTurns, if_neg Bool.false_ne_true, if_neg hmax]
    dsimp only
    rw [if_neg hpa, copystrBytes_eq (Nat.min_le_right _ _), if_pos hnull, copystrTurns, if_pos rfl,
      Option.map_some,
      List.append_nil]
  · obtain ⟨k, rfl⟩ : ∃ k, fuel = k + 1 := ⟨fuel - 1, by omega⟩
    rw [copystrFromUserLoop, if_neg hmax]
    dsimp only
    rw [if_neg hpa]
    exact if_pos hnull
  · rw [List.length_append]
    exact Nat.succ_pos _

/-- There is no NUL on the first page. -/
theorem page {ret : Int} {pages : List Uint64} (hmax : max ≠ 0)
    (hpa : walkaddr vm mm (PGROUNDDOWN va) ≠ 0) :
    let p := walkaddr vm mm (PGROUNDDOWN va) + (va - PGROUNDDOWN va)
    let n := min (pageRest va) max
    n ≤ (textAt vm p n).length →
      StrRun vm mm (PGROUNDDOWN va + PGSIZE) (max - n) ret bs pages →
        StrRun vm mm va max ret (readBytes vm.byte p n ++ bs) (PGROUNDDOWN va :: pages) := by
  intro p n hwhole hrest
  have hpos := pageRest_pos va
  have hn : 0 < n := by omega
  have hlen : (readBytes vm.byte p n).length = n := length_readBytes _ _ _
  -- the next page is the next byte, or no byte is left
  have hnext : PGROUNDDOWN va + PGSIZE = va + BitVec.ofNat 64 n ∨ max - n = 0 := by
    by_cases hfull : pageRest va ≤ max
    · have hrest : n = pageRest va := Nat.min_eq_left hfull
      exact .inl (by rw [add_pageRest, hrest])
    · exact .inr (by omega)
  refine ⟨?_, fun fuel hfuel => ?_, fun fuel hfuel => ?_, ?_⟩
  · refine StrCopy.append (by omega) (fun j hj => ⟨?_, ?_⟩) ?_
    · rw [userByte_turn hpa (by omega), getElem_readBytes]
    · refine @textAt_ne_zero vm n p _ ?_
      rw [textAt_whole hwhole]
      exact List.getElem_mem hj
    · have hcopy := hrest.copy
      rw [hlen]
      rcases hnext with hnext | hzero
      · rwa [← hnext]
      · rw [hzero] at hcopy ⊢
        obtain ⟨rfl, rfl⟩ := hcopy.of_zero
        exact .full _
  · obtain ⟨k, rfl⟩ : ∃ k, fuel = k + 1 := ⟨fuel - 1, by omega⟩
    rw [copystrTurns, if_neg Bool.false_ne_true, if_neg hmax]
    dsimp only
    rw [if_neg hpa, copystrBytes_eq (Nat.min_le_right _ _), if_neg (Nat.not_lt.2 hwhole)]
    dsimp only
    rw [hrest.turns k (by omega), Option.map_some]
  · obtain ⟨k, rfl⟩ : ∃ k, fuel = k + 1 := ⟨fuel - 1, by omega⟩
    rw [copystrFromUserLoop, if_neg hmax]
    dsimp only
    rw [if_neg hpa]
    refine (if_neg (Nat.not_lt.2 hwhole)).trans ?_
    rw [hrest.loop k (by omega)]
  · intro page hpage
    rcases List.mem_cons.1 hpage with rfl | hpage
    · exact first_looked (.inl (by rw [List.length_append]; omega)) _ (List.mem_singleton.2 rfl)
    · obtain ⟨j, hj, hpage⟩ := hrest.looked page hpage
      rcases hnext with hnext | hzero
      · refine ⟨n + j, hj.imp ?_ ?_, ?_⟩
        · intro hlt
          rw [List.length_append]
          omega
        · rintro ⟨hret, hj⟩
          rw [List.length_append]
          exact ⟨hret, by omega⟩
        · rw [hpage, hnext, BitVec.add_assoc, ← BitVec.ofNat_add]
      · have hcopy := hrest.copy
        rw [hzero] at hcopy
        obtain ⟨rfl, rfl⟩ := hcopy.of_zero
        simp [StrCopy.Looked, EINVAL] at hj

end StrRun

/-- Every call of `copystr_from_user` returns. -/
theorem copystr_run (vm : Vm) (mm : Mm) (va : Uint64) (max : Nat) :
    ∃ ret bs pages, StrRun vm mm va max ret bs pages := by
  induction max using Nat.strong_induction_on generalizing va with
  | _ max ih =>
    by_cases hmax : max = 0
    · subst hmax
      exact ⟨_, _, _, .zero vm mm va⟩
    by_cases hpa : walkaddr vm mm (PGROUNDDOWN va) = 0
    · exact ⟨_, _, _, .fault hmax hpa⟩
    have hpos := pageRest_pos va
    rcases Nat.lt_or_ge (textAt vm _ _).length (min (pageRest va) max) with hnull | hwhole
    · exact ⟨_, _, _, .null hmax hpa hnull⟩
    · obtain ⟨ret, bs, pages, hrest⟩ :=
        ih (max - min (pageRest va) max) (by omega) (PGROUNDDOWN va + PGSIZE)
      exact ⟨_, _, _, .page hmax hpa hwhole hrest⟩

/-- **`copystr_from_user` is exact and bounded.**  It returns 0 if there is a NUL among the first
`max` bytes with only valid pages up to it, and has then stored the bytes up to the first one.  It
never stores more than `max` bytes, its loops end, and no page is asked for that lies behind a
NUL. -/
theorem copystr_exact (vm : Vm) (mm : Mm) (va : Uint64) (max : Nat) :
    ((copystrFromUser vm mm va max).1 = 0 ↔ ∃ i < max, NulAt vm mm va i) ∧
      ((copystrFromUser vm mm va max).1 = 0 → ∃ i < max, NulAt vm mm va i ∧
        (∀ j < i, ¬ NulAt vm mm va j) ∧
        (copystrFromUser vm mm va max).2 = userLoad vm mm va (i + 1)) ∧
      (copystrFromUser vm mm va max).2.length ≤ max ∧
      ∃ pages,
        (∀ fuel > max, copystrTurns vm mm fuel va max false =
          some ((copystrFromUser vm mm va max).1, (copystrFromUser vm mm va max).2, pages)) ∧
        ∀ i, userByte vm mm (va + BitVec.ofNat 64 i) = some 0 →
          ∀ page ∈ pages, ∃ j ≤ i, page = PGROUNDDOWN (va + BitVec.ofNat 64 j) := by
  obtain ⟨ret, bs, pages, hrun⟩ := copystr_run vm mm va max
  have hcall : copystrFromUser vm mm va max = (ret, bs) := hrun.loop max le_rfl
  rw [hcall]
  refine ⟨⟨fun hret => ?_, ?_⟩, hrun.copy.text, hrun.copy.length_le, pages, hrun.turns,
    fun i hi page hpage => ?_⟩
  · obtain ⟨i, hi, hnull, -⟩ := hrun.copy.text hret
    exact ⟨i, hi, hnull⟩
  · rintro ⟨i, hi, hnull⟩
    exact hrun.copy.ret_eq_of_nulAt hi hnull
  · obtain ⟨j, hj, hpage⟩ := hrun.looked page hpage
    exact ⟨j, hrun.copy.looked_le hi hj, hpage⟩

end SignalOS
