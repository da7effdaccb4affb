import Mathlib.Data.Fin.VecNotation
import Mathlib.Data.List.OfFn
import SignalOS.Lib.LittleEndian
import SignalOS.Signal.Sigset

/-!
# The signal structures

The structures of `signal.h` and `ksignal.h`, the user registers of `trap.h`, and
the bytes the kernel copies between them and user memory.

* `Siginfo.copyField` — the assignment of a `siginfo_t`, field by field.
* `Ucontext.ofBytes_toBytes`, `Sigaction.ofBytes_toBytes` — a structure that was
  stored is read back.
* `Ucontext.save`, `Ucontext.restore` — the register lists of `do_signal` and
  `sys_sigreturn`; `Ucontext.restore_save` — **together they are the identity on
  every register but `t6`, which becomes zero**.
-/

namespace SignalOS

open LittleEndian

/-- The user registers of `struct trapframe`.  Its kernel fields are written by
`usertrapret` and read only by the trampoline. -/
structure Trapframe where
  epc : Uint64
  ra : Uint64
  sp : Uint64
  gp : Uint64
  tp : Uint64
  t0 : Uint64
  t1 : Uint64
  t2 : Uint64
  s0 : Uint64
  s1 : Uint64
  a0 : Uint64
  a1 : Uint64
  a2 : Uint64
  a3 : Uint64
  a4 : Uint64
  a5 : Uint64
  a6 : Uint64
  a7 : Uint64
  s2 : Uint64
  s3 : Uint64
  s4 : Uint64
  s5 : Uint64
  s6 : Uint64
  s7 : Uint64
  s8 : Uint64
  s9 : Uint64
  s10 : Uint64
  s11 : Uint64
  t3 : Uint64
  t4 : Uint64
  t5 : Uint64
  t6 : Uint64
  deriving DecidableEq

/-- A trapframe page filled with zeros. -/
def Trapframe.zero : Trapframe :=
  ⟨0, 0, 0, 0, 0, 0, 0, 0, 0, 0, 0, 0, 0, 0, 0, 0, 0, 0, 0, 0, 0, 0, 0, 0, 0, 0, 0, 0, 0, 0, 0, 0⟩

/-- `siginfo_t`. -/
structure Siginfo where
  siSigno : Int
  siCode : Int
  siPid : Int
  siStatus : Int
  addr : Uint64
  deriving DecidableEq

/-- The fields of `siginfo_t`. -/
inductive SiginfoField where
  | siSigno
  | siCode
  | siPid
  | siStatus
  | addr
  deriving DecidableEq

namespace Siginfo

def zero : Siginfo := ⟨0, 0, 0, 0, 0⟩

def fields : List SiginfoField := [.siSigno, .siCode, .siPid, .siStatus, .addr]

/-- The assignment of one field of a structure assignment. -/
def copyField (info src : Siginfo) : SiginfoField → Siginfo
  | .siSigno => { info with siSigno := src.siSigno }
  | .siCode => { info with siCode := src.siCode }
  | .siPid => { info with siPid := src.siPid }
  | .siStatus => { info with siStatus := src.siStatus }
  | .addr => { info with addr := src.addr }

/-- What is copied when these fields are copied as well. -/
def copyFields (info src : Siginfo) (fs : List SiginfoField) : Siginfo :=
  fs.foldl (fun info f => info.copyField src f) info

@[simp] theorem copyFields_nil (info src : Siginfo) : info.copyFields src [] = info := rfl

@[simp] theorem copyFields_cons (info src : Siginfo) (f : SiginfoField) (fs : List SiginfoField) :
    info.copyFields src (f :: fs) = (info.copyField src f).copyFields src fs := rfl

theorem copyFields_fields (info src : Siginfo) : info.copyFields src fields = src := rfl

end Siginfo

/-- `struct sigaction`. -/
structure Sigaction where
  saSigaction : Uint64
  saMask : Sigset
  saRestorer : Uint64
  deriving DecidableEq

instance neZeroRegs : @NeZero Nat Zero.ofOfNat0 31 := ⟨Nat.succ_ne_zero 30⟩

/-- `struct mcontext`. -/
structure Mcontext where
  epc : Uint64
  regs : Fin 31 → Uint64

/-- `struct ucontext`. -/
structure Ucontext where
  ucSigmask : Sigset
  ucMcontext : Mcontext

/-- `struct ksignal`. -/
structure Ksignal where
  sa : Signo → Sigaction
  siginfos : Signo → Siginfo
  sigmask : Sigset
  sigpending : Sigset

/-! ## Bytes -/

/-- The four bytes of a C `int`. -/
def intBytes (n : Int) : List Byte := bytesOf 4 (BitVec.ofInt 32 n).toNat

def Siginfo.toBytes (info : Siginfo) : List Byte :=
  intBytes info.siSigno ++ intBytes info.siCode ++ intBytes info.siPid ++ intBytes info.siStatus ++
    bytesOfWords [info.addr]

def Sigaction.toBytes (sa : Sigaction) : List Byte :=
  bytesOfWords [sa.saSigaction, sa.saMask, sa.saRestorer]

def Sigaction.ofBytes (bs : List Byte) : Sigaction := ⟨wordAt bs 0, wordAt bs 1, wordAt bs 2⟩

/-- The words of a `struct ucontext`, in the order of its fields. -/
def Ucontext.words (uc : Ucontext) : List Uint64 :=
  uc.ucSigmask :: uc.ucMcontext.epc :: List.ofFn uc.ucMcontext.regs

def Ucontext.toBytes (uc : Ucontext) : List Byte := bytesOfWords uc.words

def Ucontext.ofBytes (bs : List Byte) : Ucontext :=
  ⟨wordAt bs 0, wordAt bs 1, fun k => wordAt bs (k + 2)⟩

def sizeofSiginfo : Nat := 24
def sizeofUcontext : Nat := 264
def sizeofSigaction : Nat := 24
def sizeofSigset : Nat := 8

@[simp] theorem Siginfo.length_toBytes (info : Siginfo) : info.toBytes.length = sizeofSiginfo := by
  simp [Siginfo.toBytes, intBytes, sizeofSiginfo]

@[simp] theorem Sigaction.length_toBytes (sa : Sigaction) :
    sa.toBytes.length = sizeofSigaction := by
  simp [Sigaction.toBytes, sizeofSigaction]

@[simp] theorem Ucontext.length_toBytes (uc : Ucontext) : uc.toBytes.length = sizeofUcontext := by
  simp [Ucontext.toBytes, Ucontext.words, sizeofUcontext]

theorem Sigaction.ofBytes_toBytes (sa : Sigaction) : Sigaction.ofBytes sa.toBytes = sa := by
  have hword (k : Nat) (hk : k < 3) := @wordAt_bytesOfWords
    [sa.saSigaction, sa.saMask, sa.saRestorer] k hk
  simp only [Sigaction.ofBytes, Sigaction.toBytes, hword 0 (by decide), hword 1 (by decide),
    hword 2 (by decide)]
  rfl

theorem Sigaction.toBytes_ofBytes {bs : List Byte} (h : bs.length = sizeofSigaction) :
    (Sigaction.ofBytes bs).toBytes = bs :=
  bytesOfWords_wordAt (n := 3) h

/-- **A context written to memory is read back.** -/
theorem Ucontext.ofBytes_toBytes (uc : Ucontext) : Ucontext.ofBytes uc.toBytes = uc := by
  have hlen : uc.words.length = 33 := by simp [Ucontext.words]
  have hregs (k : Fin 31) : wordAt uc.toBytes (k + 2) = uc.ucMcontext.regs k := by
    rw [Ucontext.toBytes, wordAt_bytesOfWords (by omega)]
    simp only [Ucontext.words, List.getElem_cons_succ, List.getElem_ofFn]
  rw [Ucontext.ofBytes, Ucontext.toBytes, wordAt_bytesOfWords (by omega),
    wordAt_bytesOfWords (by omega)]
  simp only [Ucontext.toBytes] at hregs
  simp only [hregs]
  rfl

/-! ## Saving and restoring the user context -/

/-- The context `do_signal` saves: the mask and the registers `x0` to `x30`. -/
def Ucontext.save (mask : Sigset) (tf : Trapframe) : Ucontext where
  ucSigmask := mask
  ucMcontext :=
    { epc := tf.epc
      regs := ![0, tf.ra, tf.sp, tf.gp, tf.tp, tf.t0, tf.t1, tf.t2, tf.s0, tf.s1, tf.a0, tf.a1,
        tf.a2, tf.a3, tf.a4, tf.a5, tf.a6, tf.a7, tf.s2, tf.s3, tf.s4, tf.s5, tf.s6, tf.s7, tf.s8,
        tf.s9, tf.s10, tf.s11, tf.t3, tf.t4, tf.t5] }

/-- The registers `sys_sigreturn` restores.  There is no `regs[31]` for `t6`. -/
def Ucontext.restore (uc : Ucontext) : Trapframe where
  epc := uc.ucMcontext.epc
  ra := uc.ucMcontext.regs 1
  sp := uc.ucMcontext.regs 2
  gp := uc.ucMcontext.regs 3
  tp := uc.ucMcontext.regs 4
  t0 := uc.ucMcontext.regs 5
  t1 := uc.ucMcontext.regs 6
  t2 := uc.ucMcontext.regs 7
  s0 := uc.ucMcontext.regs 8
  s1 := uc.ucMcontext.regs 9
  a0 := uc.ucMcontext.regs 10
  a1 := uc.ucMcontext.regs 11
  a2 := uc.ucMcontext.regs 12
  a3 := uc.ucMcontext.regs 13
  a4 := uc.ucMcontext.regs 14
  a5 := uc.ucMcontext.regs 15
  a6 := uc.ucMcontext.regs 16
  a7 := uc.ucMcontext.regs 17
  s2 := uc.ucMcontext.regs 18
  s3 := uc.ucMcontext.regs 19
  s4 := uc.ucMcontext.regs 20
  s5 := uc.ucMcontext.regs 21
  s6 := uc.ucMcontext.regs 22
  s7 := uc.ucMcontext.regs 23
  s8 := uc.ucMcontext.regs 24
  s9 := uc.ucMcontext.regs 25
  s10 := uc.ucMcontext.regs 26
  s11 := uc.ucMcontext.regs 27
  t3 := uc.ucMcontext.regs 28
  t4 := uc.ucMcontext.regs 29
  t5 := uc.ucMcontext.regs 30
  t6 := 0

/-- **Saving and restoring is the identity on every register but `t6`.** -/
theorem Ucontext.restore_save (mask : Sigset) (tf : Trapframe) :
    (Ucontext.save mask tf).restore = { tf with t6 := 0 } := rfl

end SignalOS
