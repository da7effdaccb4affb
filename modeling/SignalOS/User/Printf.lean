import Mathlib.Data.List.Basic
import Mathlib.Data.List.Induction
import Mathlib.Logic.Function.Basic
import SignalOS.Machine.Riscv

/-!
# Buffered output of user programs

`printf.c` of the user library.  `write` is assumed to accept all bytes it is given.

* `putc`, `vprintf` — the functions of `printf.c`; the formatting is given what it calls
  for each character.
* `vprintf_eq_foldl` — formatting is to put the characters it comes to one after the other.
* `putc_kept` — **a character is in the buffer or written, unless the buffer is full**.
* `printf_lossless` — **the sequences of calls whose output is what they put**.
-/

namespace SignalOS

/-- The byte of a character. -/
def chr (c : Char) : Byte := BitVec.ofNat 8 c.toNat

/-! ## The buffer -/

/-- `struct print_buf`, with the bytes of the array that `buf` points to; `NULL` is `none`. -/
structure PrintBuf where
  buf : Option (Nat → Byte)
  fd : Int
  size : Nat
  len : Nat

/-- A program's `stdoutbuf`, and what it has written to each descriptor. -/
structure Stdio where
  stdoutbuf : PrintBuf
  output : Int → List Byte

/-- `write(fd, bytes, len)`. -/
def Stdio.write (s : Stdio) (fd : Int) (bytes : List Byte) : Stdio :=
  { s with output := Function.update s.output fd (s.output fd ++ bytes) }

/-- The first `len` bytes of an array. -/
def firstBytes (buf : Nat → Byte) (len : Nat) : List Byte := (List.range len).map buf

/-- `write(pb->fd, pb->buf, pb->len)`. -/
def Stdio.writeBuf (s : Stdio) (buf : Nat → Byte) : Stdio :=
  s.write s.stdoutbuf.fd (firstBytes buf s.stdoutbuf.len)

/-- `stdoutbuf.len = len`. -/
def Stdio.setLen (s : Stdio) (len : Nat) : Stdio :=
  { s with stdoutbuf := { s.stdoutbuf with len := len } }

/-- `stdout_flush()`; `write` of a `NULL` buffer stores nothing. -/
def stdoutFlush (s : Stdio) : Stdio :=
  if s.stdoutbuf.len > 0 then
    match s.stdoutbuf.buf with
    | some buf => (s.writeBuf buf).setLen 0
    | none => s.setLen 0
  else s

/-- `stdout_nobuf()`. -/
def stdoutNobuf (s : Stdio) : Stdio :=
  let s := stdoutFlush s
  { s with stdoutbuf := { s.stdoutbuf with buf := none } }

/-- `putc(&stdoutbuf, c)`. -/
def putc (s : Stdio) (c : Byte) : Stdio :=
  match s.stdoutbuf.buf with
  | some buf =>
    if s.stdoutbuf.len = s.stdoutbuf.size then (s.writeBuf buf).setLen 0
    else
      let buf := Function.update buf s.stdoutbuf.len c
      let s :=
        { s with stdoutbuf := { s.stdoutbuf with buf := some buf, len := s.stdoutbuf.len + 1 } }
      if c = chr '\r' ∨ c = chr '\n' then (s.writeBuf buf).setLen 0 else s
  | none => s.write s.stdoutbuf.fd [c]

/-! ## Formatting -/

section Format

variable {σ : Type} (put : σ → Byte → σ)

/-- `digits[x]`. -/
def digits (x : Nat) : Byte := ("0123456789ABCDEF".toList.map chr).getD x 0

/-- The loop of `printint` that fills `buf`. -/
def intDigits (base : Nat) : Nat → Nat → List Byte
  | 0, _ => []
  | fuel + 1, x => digits (x % base) :: if x / base ≠ 0 then intDigits base fuel (x / base) else []

/-- The loop ends by itself: 32 turns are enough for an `uint`. -/
theorem intDigits_fuel {base fuel x : Nat} (hx : x < base ^ (fuel + 1)) :
    intDigits base (fuel + 2) x = intDigits base (fuel + 1) x := by
  have hturn (fuel x : Nat) : intDigits base (fuel + 1) x =
      digits (x % base) :: if x / base ≠ 0 then intDigits base fuel (x / base) else [] := rfl
  induction fuel generalizing x with
  | zero =>
    have hzero : x / base = 0 := Nat.div_eq_of_lt (by simpa using hx)
    simp [hturn, hzero]
  | succ fuel ih =>
    rw [hturn (fuel + 2), ih (Nat.div_lt_of_lt_mul (by rwa [Nat.pow_succ, Nat.mul_comm] at hx))]
    rfl

/-- `buf` has room for the digits. -/
theorem intDigits_length {base n : Nat} (fuel : Nat) {x : Nat} (hx : x < base ^ (n + 1)) :
    (intDigits base fuel x).length ≤ n + 1 := by
  induction fuel generalizing n x with
  | zero => exact Nat.zero_le _
  | succ fuel ih =>
    rw [intDigits, List.length_cons]
    refine Nat.succ_le_succ ?_
    split
    · rename_i hne
      cases n with
      | zero => exact absurd (Nat.div_eq_of_lt (by simpa using hx)) hne
      | succ n => exact ih (Nat.div_lt_of_lt_mul (by rwa [Nat.pow_succ, Nat.mul_comm] at hx))
    · exact Nat.zero_le _

/-- With the sign, the digits of a number take at most 11 of the 16 bytes. -/
theorem intDigits_fits {base : Nat} (hbase : 10 ≤ base) (x : BitVec 32) :
    (intDigits base 32 x.toNat).length ≤ 10 := by
  refine intDigits_length 32 ?_
  calc x.toNat < 2 ^ 32 := x.isLt
    _ < 10 ^ 10 := by decide
    _ ≤ base ^ 10 := Nat.pow_le_pow_left hbase 10

/-- `printint(pb, xx, base, sgn)`. -/
def printint (s : σ) (xx : BitVec 32) (base : Nat) (sgn : Bool) : σ :=
  let neg := sgn && xx.slt 0
  let x := if neg then -xx else xx
  let buf := intDigits base 32 x.toNat ++ if neg then [chr '-'] else []
  buf.reverse.foldl put s

/-- The loop of `printptr`. -/
def ptrDigits : Nat → Uint64 → List Byte
  | 0, _ => []
  | i + 1, x => digits (x >>> 60).toNat :: ptrDigits i (x <<< 4)

/-- `printptr(pb, x)`. -/
def printptr (s : σ) (x : Uint64) : σ :=
  (ptrDigits 16 x).foldl put (put (put s (chr '0')) (chr 'x'))

/-- The arguments of a call, and the strings in memory that they may point to. -/
structure VaList where
  arg : Nat → Uint64
  string : Uint64 → List Byte

/-- The loop of `vprintf` from a character of the format on, with the state `'%'` or 0 and the
next argument. -/
def vprintfLoop (ap : VaList) : List Byte → Bool → Nat → σ → σ
  | [], _, _, s => s
  | c :: fmt, false, i, s =>
    if c = chr '%' then vprintfLoop ap fmt true i s else vprintfLoop ap fmt false i (put s c)
  | c :: fmt, true, i, s =>
    if c = chr 'd' then vprintfLoop ap fmt false (i + 1)
      (printint put s ((ap.arg i).setWidth 32) 10 true)
    else if c = chr 'l' then vprintfLoop ap fmt false (i + 1)
      (printint put s ((ap.arg i).setWidth 32) 10 false)
    else if c = chr 'x' then vprintfLoop ap fmt false (i + 1)
      (printint put s ((ap.arg i).setWidth 32) 16 false)
    else if c = chr 'p' then vprintfLoop ap fmt false (i + 1) (printptr put s (ap.arg i))
    else if c = chr 's' then
      let str := if ap.arg i = 0 then "(null)".toList.map chr else ap.string (ap.arg i)
      vprintfLoop ap fmt false (i + 1) (str.foldl put s)
    else if c = chr 'c' then vprintfLoop ap fmt false (i + 1) (put s ((ap.arg i).setWidth 8))
    else if c = chr '%' then vprintfLoop ap fmt false i (put s c)
    -- an unknown sequence
    else vprintfLoop ap fmt false i (put (put s (chr '%')) c)

/-- `vprintf(pb, fmt, ap)`. -/
def vprintf (s : σ) (fmt : List Byte) (ap : VaList) : σ := vprintfLoop put ap fmt false 0 s

end Format

/-- `printf(fmt, ...)`. -/
def printf (s : Stdio) (call : List Byte × VaList) : Stdio := vprintf putc s call.1 call.2

/-- The characters that a call puts, in order. -/
def printed (call : List Byte × VaList) : List Byte :=
  vprintf (fun cs c => cs ++ [c]) [] call.1 call.2

/-! ## Formatting puts characters one after the other -/

section Homomorphism

variable {σ τ : Type} {put : σ → Byte → σ} {put' : τ → Byte → τ} {h : σ → τ}

theorem foldl_put (hput : ∀ s c, h (put s c) = put' (h s) c) (cs : List Byte) (s : σ) :
    h (cs.foldl put s) = cs.foldl put' (h s) :=
  (List.foldl_hom h fun s c => (hput s c).symm).symm

theorem printint_hom (hput : ∀ s c, h (put s c) = put' (h s) c) (s : σ) (xx : BitVec 32)
    (base : Nat) (sgn : Bool) :
    h (printint put s xx base sgn) = printint put' (h s) xx base sgn :=
  foldl_put hput _ s

theorem printptr_hom (hput : ∀ s c, h (put s c) = put' (h s) c) (s : σ) (x : Uint64) :
    h (printptr put s x) = printptr put' (h s) x := by
  rw [printptr, printptr, foldl_put hput, hput, hput]

/-- What `put` does to a state is all that formatting does to it. -/
theorem vprintfLoop_hom (hput : ∀ s c, h (put s c) = put' (h s) c) (ap : VaList) (fmt : List Byte)
    (percent : Bool)
    (i : Nat) (s : σ) : h (vprintfLoop put ap fmt percent i s) = vprintfLoop put' ap fmt percent i
    (h s) := by
  induction fmt generalizing percent i s with
  | nil => rfl
  | cons c fmt ih =>
    cases percent with
    | false =>
      rw [vprintfLoop, vprintfLoop]
      split
      · exact ih _ _ _
      · rw [ih, hput]
    | true =>
      rw [vprintfLoop, vprintfLoop]
      split
      · rw [ih, printint_hom hput]
      split
      · rw [ih, printint_hom hput]
      split
      · rw [ih, printint_hom hput]
      split
      · rw [ih, printptr_hom hput]
      split
      · rw [ih, foldl_put hput]
      split
      · rw [ih, hput]
      split
      · rw [ih, hput]
      · rw [ih, hput, hput]

end Homomorphism

/-- **A call puts its characters one after the other.** -/
theorem printf_eq_foldl (s : Stdio) (call : List Byte × VaList) :
    printf s call = (printed call).foldl putc s := by
  have hhom :=
    @vprintfLoop_hom _ _ (fun cs c => cs ++ [c]) putc (fun cs : List Byte => cs.foldl putc s)
      (fun cs c => by rw [List.foldl_append]; rfl) call.2 call.1 false 0 []
  exact hhom.symm

theorem printf_calls (s : Stdio) (calls : List (List Byte × VaList)) :
    calls.foldl printf s = (calls.flatMap printed).foldl putc s := by
  induction calls generalizing s with
  | nil => rfl
  | cons call calls ih =>
    rw [List.foldl_cons, ih, List.flatMap_cons, List.foldl_append, printf_eq_foldl]

/-- A format without `%` is put as it is. -/
theorem printed_plain {fmt : List Byte} (ap : VaList) (h : chr '%' ∉ fmt) :
    printed (fmt, ap) = fmt := by
  have hloop (cs : List Byte) : vprintfLoop (fun cs c => cs ++ [c]) ap fmt false 0 cs = cs ++
      fmt := by
    induction fmt generalizing cs with
    | nil => exact (List.append_nil cs).symm
    | cons c fmt ih =>
      rw [List.mem_cons, not_or] at h
      rw [vprintfLoop, if_neg (Ne.symm h.1), ih h.2, List.append_assoc]
      rfl
  exact hloop []

/-! ## The buffer of `stdoutbuf` -/

/-- The state at the start of a program. -/
def Stdio.start : Stdio := ⟨⟨some fun _ => 0, 1, 1024, 0⟩, fun _ => []⟩

/-- The bytes in the buffer. -/
def Stdio.pending (s : Stdio) : List Byte :=
  match s.stdoutbuf.buf with
  | some buf => firstBytes buf s.stdoutbuf.len
  | none => []

def LineEnd (c : Byte) : Prop := c = chr '\r' ∨ c = chr '\n'

instance (c : Byte) : Decidable (LineEnd c) := inferInstanceAs (Decidable (_ ∨ _))

/-- The program has its buffer. -/
structure Buffering (s : Stdio) : Prop where
  buf : s.stdoutbuf.buf.isSome
  fd : s.stdoutbuf.fd = 1
  size : s.stdoutbuf.size = 1024
  len : s.stdoutbuf.len ≤ 1024

theorem firstBytes_length (buf : Nat → Byte) (len : Nat) : (firstBytes buf len).length = len := by
  simp [firstBytes]

theorem firstBytes_update (buf : Nat → Byte) (len : Nat) (c : Byte) :
    firstBytes (Function.update buf len c) (len + 1) = firstBytes buf len ++ [c] := by
  rw [firstBytes, List.range_succ, List.map_append, List.map_singleton, Function.update_self,
    firstBytes]
  congr 1
  refine List.map_congr_left fun i hi => Function.update_of_ne ?_ _ _
  exact (List.mem_range.1 hi).ne

theorem writeBuf_output (s : Stdio) (buf : Nat → Byte) :
    ((s.writeBuf buf).setLen 0).output s.stdoutbuf.fd =
    s.output s.stdoutbuf.fd ++ firstBytes buf s.stdoutbuf.len := Function.update_self _ _ _

/-- What `putc` does with a character: it is lost, stored, or written with its line. -/
inductive PutcCase (s : Stdio) (c : Byte) (s' : Stdio) : Prop
  | lost (hfull : s.pending.length = 1024) (hout : s'.output 1 = s.output 1 ++ s.pending)
    (hpending : s'.pending = [])
  | stored (hroom : s.pending.length < 1024) (hc : ¬ LineEnd c) (hout : s'.output 1 = s.output 1)
      (hpending : s'.pending = s.pending ++ [c])
  | line (hroom : s.pending.length < 1024) (hc : LineEnd c) (hout : s'.output 1 = s.output 1 ++
    s.pending ++ [c])
      (hpending : s'.pending = [])

theorem putc_buffering {s : Stdio} (h : Buffering s) (c : Byte) :
    Buffering (putc s c) ∧ PutcCase s c (putc s c) := by
  obtain ⟨⟨b, fd, size, len⟩, output⟩ := s
  obtain ⟨hbuf, rfl, rfl, hlen⟩ := h
  obtain ⟨buf, rfl⟩ := Option.isSome_iff_exists.1 hbuf
  have hlength := firstBytes_length buf len
  rw [putc]
  dsimp only
  split
  · rename_i hfull
    exact ⟨⟨rfl, rfl, rfl, Nat.zero_le _⟩,
      .lost (hlength.trans hfull) (writeBuf_output ⟨⟨some buf, 1, 1024, len⟩, output⟩ buf) rfl⟩
  · rename_i hroom
    have hroom : len < 1024 := lt_of_le_of_ne hlen hroom
    split
    · rename_i hc
      refine ⟨⟨rfl, rfl, rfl, Nat.zero_le _⟩, .line (hlength.trans_lt hroom) hc ?_ rfl⟩
      refine (writeBuf_output ⟨⟨_, 1, 1024, len + 1⟩, output⟩ _).trans ?_
      rw [List.append_assoc]
      exact congrArg (output 1 ++ ·) (firstBytes_update buf len c)
    · rename_i hc
      exact ⟨⟨rfl, rfl, rfl, hroom⟩, .stored (hlength.trans_lt hroom) hc rfl
        (firstBytes_update buf len c)⟩

/-- 1024 characters without a line end are followed by another character. -/
def LongLine (cs : List Byte) : Prop :=
  ∃ before line c after, cs = before ++ line ++ c :: after ∧ line.length = 1024 ∧ ∀ x ∈ line,
    ¬ LineEnd x

/-- The characters that were put are written up to a line end, and the others are in the buffer. -/
structure Kept (s : Stdio) (cs : List Byte) : Prop where
  all : s.output 1 ++ s.pending = cs
  pending : ∀ x ∈ s.pending, ¬ LineEnd x
  written : s.output 1 = [] ∨ ∃ before x, s.output 1 = before ++ [x] ∧ LineEnd x

theorem LongLine.append {cs : List Byte} (h : LongLine cs) (c : Byte) : LongLine (cs ++ [c]) := by
  obtain ⟨before, line, d, after, rfl, hline⟩ := h
  exact ⟨before, line, d, after ++ [c], by simp, hline⟩

/-- The line that a character follows is the end of what was put before. -/
theorem LongLine.of_append {cs : List Byte} {c : Byte} (h : LongLine (cs ++ [c]))
    (hcs : ¬ LongLine cs) :
    ∃ before line, cs = before ++ line ∧ line.length = 1024 ∧ ∀ x ∈ line, ¬ LineEnd x := by
  obtain ⟨before, line, d, after, heq, hlen, hline⟩ := h
  rcases List.eq_nil_or_concat after with rfl | ⟨after, e, rfl⟩
  · obtain ⟨rfl, -⟩ := List.append_inj' (heq : cs ++ [c] = before ++ line ++ [d]) rfl
    exact ⟨before, line, rfl, hlen, hline⟩
  · rw [List.concat_eq_append, ← List.cons_append, ← List.append_assoc] at heq
    obtain ⟨rfl, -⟩ := List.append_inj' heq rfl
    exact absurd ⟨before, line, d, after, rfl, hlen, hline⟩ hcs

/-- The buffer has the whole line that is not written yet. -/
theorem Kept.short {s : Stdio} {cs before line : List Byte} (h : Kept s cs)
    (hcs : cs = before ++ line)
    (hline : ∀ x ∈ line, ¬ LineEnd x) : line.length ≤ s.pending.length := by
  by_contra hlong
  have heq : s.output 1 ++ s.pending = before ++ line := h.all.trans hcs
  obtain ⟨mid, hout, hmid⟩ : ∃ mid, s.output 1 = before ++ mid ∧ line = mid ++ s.pending := by
    rcases List.append_eq_append_iff.1 heq with ⟨mid, rfl, hpending⟩ | ⟨mid, hout, hline⟩
    · rw [hpending, List.length_append] at hlong
      omega
    · exact ⟨mid, hout, hline⟩
  rcases h.written with hnil | ⟨written, x, hwritten, hx⟩
  · rw [hnil] at hout
    obtain ⟨-, rfl⟩ := List.append_eq_nil_iff.1 hout.symm
    rw [hmid] at hlong
    exact hlong le_rfl
  · rcases List.eq_nil_or_concat mid with rfl | ⟨mid, y, rfl⟩
    · rw [hmid] at hlong
      exact hlong le_rfl
    · rw [hwritten, List.concat_eq_append, ← List.append_assoc] at hout
      obtain ⟨-, hxy⟩ := List.append_inj' hout rfl
      cases hxy
      exact hline x (by rw [hmid]; simp) hx

/-- One more character, when none was lost so far. -/
theorem Kept.putc {s s' : Stdio} {cs : List Byte} {c : Byte} (h : Kept s cs) (hcs : ¬ LongLine cs)
    (hput : PutcCase s c s') :
    Kept s' (cs ++ [c]) ∧ ¬ LongLine (cs ++ [c]) ∨
      (s'.output 1 ++ s'.pending).length < (cs ++ [c]).length ∧ LongLine (cs ++ [c]) := by
  have hshort (hroom : s.pending.length < 1024) : ¬ LongLine (cs ++ [c]) := by
    intro hlong
    obtain ⟨before, line, heq, hlen, hline⟩ := hlong.of_append hcs
    have hle := h.short heq hline
    omega
  cases hput with
  | lost hfull hout hpending =>
    refine .inr ⟨?_, s.output 1, s.pending, c, [], by rw [h.all], hfull, h.pending⟩
    rw [hout, hpending, List.append_nil, h.all, List.length_append, List.length_singleton]
    exact Nat.lt_succ_self _
  | stored hroom hc hout hpending =>
    refine .inl ⟨⟨?_, ?_, ?_⟩, hshort hroom⟩
    · rw [hout, hpending, ← List.append_assoc, h.all]
    · rw [hpending]
      intro x hx
      rcases List.mem_append.1 hx with hx | hx
      · exact h.pending x hx
      · exact List.mem_singleton.1 hx ▸ hc
    · rw [hout]
      exact h.written
  | line hroom hc hout hpending =>
    refine .inl ⟨⟨?_, ?_, .inr ⟨s.output 1 ++ s.pending, c, hout, hc⟩⟩, hshort hroom⟩
    · rw [hout, hpending, List.append_nil, h.all]
    · rw [hpending]
      exact fun x hx => absurd hx List.not_mem_nil

/-- **After any characters**: all of them are there, or some are lost and there was a long line. -/
theorem putc_kept (cs : List Byte) :
    let s := cs.foldl putc .start
    Buffering s ∧ (Kept s cs ∧ ¬ LongLine cs ∨ (s.output 1 ++ s.pending).length < cs.length ∧
      LongLine cs) := by
  induction cs using List.reverseRecOn with
  | nil =>
    refine ⟨⟨rfl, rfl, rfl, Nat.zero_le _⟩, .inl ⟨⟨rfl, fun x hx => absurd hx List.not_mem_nil,
      .inl rfl⟩, ?_⟩⟩
    rintro ⟨before, line, c, after, heq, -⟩
    simp at heq
  | append_singleton cs c ih =>
    obtain ⟨hbuffering, hcase⟩ := ih
    obtain ⟨hnext, hput⟩ := putc_buffering hbuffering c
    rw [List.foldl_append, List.foldl_cons, List.foldl_nil]
    refine ⟨hnext, ?_⟩
    rcases hcase with ⟨hkept, hcs⟩ | ⟨hless, hlong⟩
    · exact hkept.putc hcs hput
    · refine .inr ⟨?_, hlong.append c⟩
      rw [List.length_append] at hless
      rw [List.length_append, List.length_append, List.length_singleton]
      cases hput with
      | lost hfull hout hpending =>
        rw [hout, hpending, List.length_append, List.length_nil]
        omega
      | stored hroom hc hout hpending =>
        rw [hout, hpending, List.length_append, List.length_singleton]
        omega
      | line hroom hc hout hpending =>
        rw [hout, hpending, List.length_append, List.length_append, List.length_singleton,
          List.length_nil]
        omega

/-! ## Calls of `printf` -/

/-- The call that ends the output. -/
inductive Finish where
  | flush
  | nobuf

def Finish.run : Finish → Stdio → Stdio
  | flush => stdoutFlush
  | nobuf => stdoutNobuf

/-- It writes what is in the buffer. -/
theorem Finish.run_output {s : Stdio} (h : Buffering s) (finish : Finish) :
    (finish.run s).output 1 = s.output 1 ++ s.pending := by
  have hflush : (stdoutFlush s).output 1 = s.output 1 ++ s.pending := by
    obtain ⟨⟨b, fd, size, len⟩, output⟩ := s
    obtain ⟨hbuf, rfl, rfl, hlen⟩ := h
    obtain ⟨buf, rfl⟩ := Option.isSome_iff_exists.1 hbuf
    rw [stdoutFlush]
    split
    · exact writeBuf_output ⟨⟨some buf, 1, 1024, len⟩, output⟩ buf
    · rename_i hempty
      obtain rfl := Nat.eq_zero_of_not_pos hempty
      exact (List.append_nil _).symm
  cases finish with
  | flush => exact hflush
  | nobuf => exact hflush

/-- **Nothing is lost if and only if no 1024 characters without a line end are followed by another
one.** -/
theorem printf_lossless (calls : List (List Byte × VaList)) (finish : Finish) :
    (finish.run (calls.foldl printf .start)).output 1 = calls.flatMap printed ↔
      ¬ LongLine (calls.flatMap printed) := by
  rw [printf_calls]
  obtain ⟨hbuffering, hcase⟩ := putc_kept (calls.flatMap printed)
  rw [Finish.run_output hbuffering]
  rcases hcase with ⟨hkept, hshort⟩ | ⟨hless, hlong⟩
  · exact iff_of_true hkept.all hshort
  · exact iff_of_false (fun heq => hless.ne (congrArg List.length heq)) (not_not.2 hlong)

/-- The last of 1025 characters is lost. -/
theorem printf_loses_character : ¬ ∀ (calls : List (List Byte × VaList)) (finish : Finish),
    (finish.run (calls.foldl printf .start)).output 1 = calls.flatMap printed := by
  intro hall
  have hcall := hall [(List.replicate 1025 (chr 'a'), ⟨fun _ => 0, fun _ => []⟩)] .flush
  have hprinted : [(List.replicate 1025 (chr 'a'), (⟨fun _ => 0, fun _ => []⟩ : VaList))].flatMap
    printed =
      List.replicate 1025 (chr 'a') := by
    rw [List.flatMap_singleton, printed_plain]
    intro hmem
    exact absurd (List.eq_of_mem_replicate hmem) (by decide)
  rw [printf_calls, hprinted] at hcall
  obtain ⟨hbuffering, ⟨-, hshort⟩ | ⟨hless, -⟩⟩ := putc_kept (List.replicate 1025 (chr 'a'))
  · refine hshort ⟨[], List.replicate 1024 (chr 'a'), chr 'a', [], ?_, List.length_replicate,
      fun x hx => ?_⟩
    · rw [List.nil_append]
      exact List.replicate_succ'
    · rw [List.eq_of_mem_replicate hx]
      decide
  · rw [← Finish.run_output hbuffering .flush, hcall] at hless
    exact lt_irrefl _ hless

end SignalOS
