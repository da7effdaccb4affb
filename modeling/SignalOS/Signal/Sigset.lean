import Mathlib.Data.List.FinRange
import SignalOS.Lib.BitSet
import SignalOS.Machine.Riscv

/-!
# Signal numbers and signal sets

`signal.h`: the ten signals, the dispositions `SIG_DFL` and `SIG_IGN`, and sets
of signals as the bits of a 64-bit word.

* `Signo` — a signal number, an index into the kernel's per-signal arrays.
* `sigaddset`, `sigdelset`, `sigismember`, … — the set operations, with one
  membership lemma for each.
-/

namespace SignalOS

open BitSet

def SIGMAX : Nat := 10

/-- A signal number: an index into the arrays of `SIGMAX + 1` entries. -/
abbrev Signo := Fin (SIGMAX + 1)

instance (priority := high) neZeroSigmax : @NeZero Nat Zero.ofOfNat0 (SIGMAX + 1) :=
  ⟨Nat.succ_ne_zero SIGMAX⟩

def SIGUSR0 : Signo := 1
def SIGUSR1 : Signo := 2
def SIGUSR2 : Signo := 3
def SIGKILL : Signo := 4
def SIGTERM : Signo := 5
def SIGCHLD : Signo := 6
def SIGSTOP : Signo := 7
def SIGCONT : Signo := 8
def SIGSEGV : Signo := 9
def SIGINT : Signo := 10

def SIGMIN : Signo := SIGUSR0

/-- The signals `SIGMIN` to `SIGMAX`, in the order of the kernel's loops. -/
def allSignos : List Signo := (List.finRange (SIGMAX + 1)).tail

/-- A C `int` as a signal number, if it is in `[SIGMIN, SIGMAX]`. -/
def toSigno (signo : Int) : Option Signo :=
  if h : SIGMIN ≤ signo ∧ signo ≤ SIGMAX then
    some ⟨signo.toNat, by have := h.2; rw [SIGMAX] at *; omega⟩
  else none

/-- The signals the kernel treats apart are distinct. -/
@[simp] theorem signos_ne :
    SIGKILL ≠ SIGSTOP ∧ SIGKILL ≠ SIGCONT ∧ SIGKILL ≠ SIGUSR2 ∧ SIGKILL ≠ SIGCHLD ∧
      SIGSTOP ≠ SIGKILL ∧ SIGSTOP ≠ SIGCONT ∧ SIGSTOP ≠ SIGUSR2 ∧ SIGSTOP ≠ SIGCHLD ∧
      SIGCONT ≠ SIGKILL ∧ SIGCONT ≠ SIGSTOP ∧ SIGCONT ≠ SIGUSR2 ∧ SIGCONT ≠ SIGCHLD ∧
      SIGUSR2 ≠ SIGKILL ∧ SIGUSR2 ≠ SIGSTOP ∧ SIGUSR2 ≠ SIGCONT ∧ SIGUSR2 ≠ SIGCHLD ∧
      SIGCHLD ≠ SIGKILL ∧ SIGCHLD ≠ SIGSTOP ∧ SIGCHLD ≠ SIGCONT ∧ SIGCHLD ≠ SIGUSR2 := by
  decide

/-! ## Dispositions and masks -/

def SIG_DFL : Uint64 := 0
def SIG_IGN : Uint64 := 1

def SIG_BLOCK : Int := 1
def SIG_UNBLOCK : Int := 2
def SIG_SETMASK : Int := 3

/-- `sigset_t`. -/
abbrev Sigset := Uint64

/-- `sigmask(signo)`: the set of one signal. -/
def sigmask (signo : Signo) : Sigset := (1 : Uint64) <<< signo.val

def sigemptyset : Sigset := 0

def sigaddset (set : Sigset) (signo : Signo) : Sigset := set ||| (1 : Uint64) <<< signo.val

def sigdelset (set : Sigset) (signo : Signo) : Sigset := set &&& ~~~((1 : Uint64) <<< signo.val)

def sigismember (set : Sigset) (signo : Signo) : Bool := set &&& (1 : Uint64) <<< signo.val != 0

theorem val_lt_width (n : Signo) : n.val < 64 := lt_of_lt_of_le n.isLt (by decide)

/-- The kernel's membership test reads the word as a set of bit positions. -/
theorem sigismember_iff {s : Sigset} {n : Signo} : sigismember s n = true ↔ n.val ∈ elems s := by
  rw [sigismember, bne_iff_ne]
  exact and_single_ne_zero (val_lt_width n)

@[simp] theorem sigismember_sigemptyset (n : Signo) : sigismember sigemptyset n = false := by
  rw [← Bool.not_eq_true, sigismember_iff, sigemptyset]
  change ¬ n.val ∈ elems (0#64)
  rw [elems_zero]
  exact Set.notMem_empty _

@[simp] theorem sigismember_or (s t : Sigset) (n : Signo) :
    sigismember (s ||| t) n = (sigismember s n || sigismember t n) := by
  rw [Bool.eq_iff_iff, Bool.or_eq_true]
  simp only [sigismember_iff, elems_or, Set.mem_union]

@[simp] theorem sigismember_sigmask (m n : Signo) :
    sigismember (sigmask m) n = decide (n = m) := by
  rw [Bool.eq_iff_iff, decide_eq_true_eq, sigismember_iff, sigmask]
  change n.val ∈ elems ((1#64) <<< m.val) ↔ n = m
  rw [elems_single (val_lt_width m), Set.mem_singleton_iff, Fin.ext_iff]

@[simp] theorem sigismember_sigaddset (s : Sigset) (m n : Signo) :
    sigismember (sigaddset s m) n = (sigismember s n || decide (n = m)) := by
  have hor : sigaddset s m = s ||| sigmask m := rfl
  rw [hor, sigismember_or, sigismember_sigmask]

@[simp] theorem sigismember_sigdelset (s : Sigset) (m n : Signo) :
    sigismember (sigdelset s m) n = (sigismember s n && !decide (n = m)) := by
  have hdel : n.val ∈ elems (sigdelset s m) ↔ n.val ∈ elems s ∧ n ≠ m := by
    change n.val ∈ elems (s &&& ~~~((1#64) <<< m.val)) ↔ _
    rw [elems_erase (val_lt_width m), Set.mem_sdiff, Set.mem_singleton_iff, ne_eq, Fin.ext_iff]
  rw [Bool.eq_iff_iff]
  simp only [Bool.and_eq_true, Bool.not_eq_true', decide_eq_false_iff_not, sigismember_iff, hdel,
    ne_eq]

theorem sigdelset_of_not_member {s : Sigset} {n : Signo} (h : sigismember s n = false) :
    sigdelset s n = s := by
  refine erase_of_notMem (val_lt_width n) ?_
  rw [← sigismember_iff, h]
  exact Bool.false_ne_true

theorem mem_allSignos {n : Signo} : n ∈ allSignos ↔ n ≠ 0 := by
  revert n
  decide

theorem toSigno_val {n : Signo} (h : n ≠ 0) : toSigno n.val = some n := by
  revert n
  decide

end SignalOS
