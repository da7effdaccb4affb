import SignalOS.Machine.Riscv

/-!
# The console's input ring

`cons` and `consintr` of `console.c`.  What is echoed to the terminal is left out.
-/

namespace SignalOS

def INPUT_BUF_SIZE : Nat := 128

/-- `cons`: the ring with its read, write and edit indices, which count modulo `2^32`. -/
structure Cons where
  buf : Fin INPUT_BUF_SIZE → Byte
  r : BitVec 32
  w : BitVec 32
  e : BitVec 32

def Cons.zero : Cons := ⟨fun _ => 0, 0, 0, 0⟩

/-- `i % INPUT_BUF_SIZE`. -/
def ringIndex (i : BitVec 32) : Fin INPUT_BUF_SIZE := ⟨i.toNat % 128, Nat.mod_lt _ (by decide)⟩

/-- `C(x)`: a control character. -/
def C (x : Char) : Byte := BitVec.ofNat 8 (x.toNat - 64)

def newline : Byte := 10

/-- The loop of `C('U')`: kill the line. -/
def Cons.killLine : Nat → Cons → Cons
  | 0, cons => cons
  | fuel + 1, cons =>
    if cons.e ≠ cons.w ∧ cons.buf (ringIndex (cons.e - 1)) ≠ newline then
      killLine fuel { cons with e := cons.e - 1 }
    else cons

/-- `consintr(c)`: the ring, and whether the readers are woken. -/
def consintr (cons : Cons) (c : Byte) : Cons × Bool :=
  if c = C 'P' ∨ c = C 'Q' then (cons, false)
  else if c = C 'U' then (cons.killLine (cons.e - cons.w).toNat, false)
  else if c = 0x7f then
    (if cons.e ≠ cons.w then { cons with e := cons.e - 1 } else cons, false)
  else if c ≠ 0 ∧ cons.e - cons.r < 128 then
    let c := if c = 13 then newline else c
    let cons :=
      { cons with buf := fun i => if i = ringIndex cons.e then c else cons.buf i, e := cons.e + 1 }
    if c = newline ∨ c = C 'D' ∨ cons.e - cons.r = 128 then ({ cons with w := cons.e }, true)
    else (cons, false)
  else (cons, false)

end SignalOS
