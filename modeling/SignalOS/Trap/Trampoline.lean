import Mathlib.Data.Fintype.Basic
import Mathlib.Logic.Relation
import Mathlib.Tactic.FinCases
import SignalOS.Lib.Rv64
import SignalOS.Signal.Ksignal
import SignalOS.Vm.Kalloc
import SignalOS.Vm.Kvm

/-!
# The way to user mode and back

`usertrapret` of `trap.c`, and `uservec` and `userret` of `trampoline.S`, the code that switches
between the address spaces of the kernel and of a process.

* `uservec`, `userret` — the code, as it stands in the trampoline page; `usertrapret` — what the
  kernel does before it jumps there, `toUserret` — the part of it behind the stop.
* `Spaces` — what the two address spaces map; `FrameAt` — the registers in a trapframe page.
* `userret_steps`, `uservec_steps` — what the code does.
* `context_kept` — **a process goes on with the registers of its trapframe, and at the next
  trap the trapframe has its registers**, whatever the process does in between.
-/

namespace SignalOS.Trampoline

open Rv64 Rv64.Instr Rv64.Hart

/-! ## The code -/

def uservec : List Instr :=
  [ .csrrw .a0 .sscratch .a0,
    .sd .ra 40 .a0, .sd .sp 48 .a0, .sd .gp 56 .a0, .sd .tp 64 .a0, .sd .t0 72 .a0,
    .sd .t1 80 .a0, .sd .t2 88 .a0, .sd .s0 96 .a0, .sd .s1 104 .a0, .sd .a1 120 .a0,
    .sd .a2 128 .a0, .sd .a3 136 .a0, .sd .a4 144 .a0, .sd .a5 152 .a0, .sd .a6 160 .a0,
    .sd .a7 168 .a0, .sd .s2 176 .a0, .sd .s3 184 .a0, .sd .s4 192 .a0, .sd .s5 200 .a0,
    .sd .s6 208 .a0, .sd .s7 216 .a0, .sd .s8 224 .a0, .sd .s9 232 .a0, .sd .s10 240 .a0,
    .sd .s11 248 .a0, .sd .t3 256 .a0, .sd .t4 264 .a0, .sd .t5 272 .a0, .sd .t6 280 .a0,
    .csrr .t0 .sscratch, .sd .t0 112 .a0,
    .csrr .t1 .sepc, .sd .t1 24 .a0,
    .ld .t1 0 .a0, .ld .sp 8 .a0, .ld .t0 16 .a0, .ld .tp 32 .a0,
    .csrw .satp .t1, .sfenceVma,
    .jr .t0 ]

def userret : List Instr :=
  [ .csrw .satp .a1, .sfenceVma,
    .csrw .stvec .a2,
    .ld .t0 112 .a0, .csrw .sscratch .t0,
    .ld .ra 40 .a0, .ld .sp 48 .a0, .ld .gp 56 .a0, .ld .tp 64 .a0, .ld .t0 72 .a0,
    .ld .t1 80 .a0, .ld .t2 88 .a0, .ld .s0 96 .a0, .ld .s1 104 .a0, .ld .a1 120 .a0,
    .ld .a2 128 .a0, .ld .a3 136 .a0, .ld .a4 144 .a0, .ld .a5 152 .a0, .ld .a6 160 .a0,
    .ld .a7 168 .a0, .ld .s2 176 .a0, .ld .s3 184 .a0, .ld .s4 192 .a0, .ld .s5 200 .a0,
    .ld .s6 208 .a0, .ld .s7 216 .a0, .ld .s8 224 .a0, .ld .s9 232 .a0, .ld .s10 240 .a0,
    .ld .s11 248 .a0, .ld .t3 256 .a0, .ld .t4 264 .a0, .ld .t5 272 .a0, .ld .t6 280 .a0,
    .csrrw .a0 .sscratch .a0,
    .sret ]

/-- The trampoline page. -/
def trampoline : List Instr := uservec ++ userret

/-- The registers that both lists have in common, with their places in `struct trapframe`. -/
def userRegs : List (Reg × Word) :=
  [
    (.ra, 40), (.sp, 48), (.gp, 56), (.tp, 64), (.t0, 72), (.t1, 80), (.t2, 88), (.s0, 96),
    (.s1, 104), (.a1, 120), (.a2, 128), (.a3, 136), (.a4, 144), (.a5, 152), (.a6, 160), (.a7, 168),
    (.s2, 176), (.s3, 184), (.s4, 192), (.s5, 200), (.s6, 208), (.s7, 216), (.s8, 224), (.s9, 232),
    (.s10, 240), (.s11, 248), (.t3, 256), (.t4, 264), (.t5, 272), (.t6, 280) ]

def SATP_SV39 : Uint64 := 8 <<< 60

def MAKE_SATP (pagetable : Uint64) : Uint64 := SATP_SV39 ||| (pagetable >>> 12)

/-- The rest of `usertrapret()`, which a process that has stopped comes to when it is continued: up
to the first instruction of `userret`.  `trapframe` is the kernel's pointer to the trapframe. -/
def toUserret (env : Env) (trapframe kstack usertrap pgt : Uint64) (h : Hart) : Option Hart := do
  let h ← h.write env trapframe (h.csr .satp)
  let h ← h.write env (trapframe + 8) (kstack + KERNEL_STACK_SIZE)
  let h ← h.write env (trapframe + 16) usertrap
  let h ← h.write env (trapframe + 32) (h.get .tp)
  let epc ← h.read env (trapframe + 24)
  -- `sret` is to go to user mode, with interrupts enabled
  let h := { h.setCsr .sepc epc with spp := .user, spie := true }
  let satp := MAKE_SATP (KVA_TO_PA pgt)
  -- `uservec` is the first code in the page
  let stvec := TRAMPOLINE &&& ~~~3
  let h := ((h.set .a0 TRAPFRAME).set .a1 satp).set .a2 stvec
  return { h with pc := TRAMPOLINE + BitVec.ofNat 64 (4 * uservec.length) }

/-- What `usertrapret()` comes to: `sched()` with `p->state = STOPPED`, or `userret`. -/
inductive Leaving where
  | stops
  | goes (h : Hart)

/-- `usertrapret()` of a process with this `need_stop`; no result is the panic for interrupts that
are on, or a fault. -/
def usertrapret (env : Env) (needStop : Int) (trapframe kstack usertrap pgt : Uint64) (h : Hart) :
    Option Leaving :=
  if h.sie then none
  else if needStop ≠ 0 then some .stops
  else (toUserret env trapframe kstack usertrap pgt h).map .goes

/-! ## The trapframe -/

/-- The general registers of a trapframe. -/
def regs (t : Trapframe) : Reg → Uint64 :=
  ![
    0, t.ra, t.sp, t.gp, t.tp, t.t0, t.t1, t.t2, t.s0, t.s1, t.a0, t.a1,
    t.a2, t.a3, t.a4, t.a5, t.a6, t.a7, t.s2, t.s3, t.s4, t.s5, t.s6, t.s7,
    t.s8, t.s9, t.s10, t.s11, t.t3, t.t4, t.t5, t.t6 ]

/-- What the address spaces of the kernel and of a process map, and what the process cannot get
at. -/
structure Spaces (env : Env) (ksatp usatp tf page : Uint64) : Prop where
  start : PageStart tf
  code : ∀ k : Nat, k < trampoline.length → env.code (page + BitVec.ofNat 64 (4 * k)) =
    trampoline[k]?
  fetch : ∀ satp, satp = ksatp ∨ satp = usatp → ∀ k : Nat, k < trampoline.length →
    env.xlate satp .supervisor .fetch (TRAMPOLINE + BitVec.ofNat 64 (4 * k)) = some
      (page + BitVec.ofNat 64 (4 * k))
  frame : ∀ a, a ≠ .fetch → ∀ off : Uint64, off < 288 →
    env.xlate usatp .supervisor a (TRAPFRAME + off) = some (tf + off)
  kernel : ∀ a, a ≠ .fetch → ∀ off : Uint64, off < 288 →
    env.xlate ksatp .supervisor a (PA_TO_KVA tf + off) = some (tf + off)
  others : ∀ va pa, env.xlate usatp .user .store va = some pa → ¬ (pa &&& ~~~7) - tf < 288

variable {env : Env} {ksatp usatp tf page : Uint64} {t : Trapframe} {h : Hart}

theorem userRegs_places : ∀ p ∈ userRegs, p.2 < 288 ∧ p.2.toNat % 8 = 0 ∧ p.1 ≠ .a0 := by
  -- along the list, not over all pairs of a register and a word
  have hall : userRegs.all (fun p => p.2 < 288 ∧ p.2.toNat % 8 = 0 ∧ p.1 ≠ .a0) = true := by decide
  exact fun p hp => of_decide_eq_true (List.all_eq_true.1 hall p hp)

theorem place_sub (a off : Uint64) : a + off - a = off := by grind

namespace Spaces

variable (hs : Spaces env ksatp usatp tf page)

include hs

theorem access {a : Access} (ha : a ≠ .fetch) {off : Uint64} (hoff : off < 288)
    (haligned : off.toNat % 8 = 0) :
    env.access usatp .supervisor a (TRAPFRAME + off) = some (tf + off) := by
  have hva : (TRAPFRAME + off).toNat % 8 = 0 := by
    rw [BitVec.toNat_add, show TRAPFRAME.toNat = 2 ^ 38 - 8192 from rfl]
    omega
  rw [Env.access, if_pos hva, hs.frame a ha off hoff]

end Spaces

/-! ## Inside the trampoline page -/

/-- The hart runs in the address space of the process, with `a0` at the trapframe. -/
structure Ready (usatp : Uint64) (h : Hart) : Prop where
  a0 : h.get .a0 = TRAPFRAME
  satp : h.csr .satp = usatp
  mode : h.mode = .supervisor

namespace Ready

theorem set (hr : Ready usatp h) {r : Reg} (hne : r ≠ .a0) (v : Uint64) :
    Ready usatp (h.set r v).next := by
  refine ⟨?_, hr.satp, hr.mode⟩
  rw [get_next, get_set, if_neg (by decide), if_neg hne.symm, hr.a0]

theorem store (hr : Ready usatp h) (pa v : Uint64) : Ready usatp (h.store pa v).next :=
  ⟨hr.a0, hr.satp, hr.mode⟩

theorem setCsr (hr : Ready usatp h) {c : Csr} (hne : c ≠ .satp) (v : Uint64) {r : Reg}
    (hr' : r ≠ .a0) (w : Uint64) :
    Ready usatp ((h.setCsr c v).set r w).next := by
  have hcsr : Ready usatp (h.setCsr c v) := by
    refine ⟨hr.a0, ?_, hr.mode⟩
    rw [csr_setCsr, if_neg hne.symm, hr.satp]
  exact hcsr.set hr' w

end Ready

namespace Spaces

variable (hs : Spaces env ksatp usatp tf page)

include hs

theorem ld (hr : Ready usatp h) (rd : Reg) {off : Uint64} (hoff : off < 288)
    (haligned : off.toNat % 8 = 0) :
    Hart.exec env (.ld rd off .a0) h = some (h.set rd (h.mem (tf + off))).next := by
  apply exec_ld
  rw [hr.a0, hr.satp, hr.mode]
  exact hs.access (by decide) hoff haligned

theorem sd (hr : Ready usatp h) (rs : Reg) {off : Uint64} (hoff : off < 288)
    (haligned : off.toNat % 8 = 0) :
    Hart.exec env (.sd rs off .a0) h = some (h.store (tf + off) (h.get rs)).next := by
  apply exec_sd
  rw [hr.a0, hr.satp, hr.mode]
  exact hs.access (by decide) hoff haligned

theorem saves (hr : Ready usatp h) : runs env (Rv64.saves .a0 userRegs) h = some { h with
    mem := updates h.mem (userRegs.map fun p => (tf + p.2, h.get p.1))
    pc := h.pc + BitVec.ofNat 64 (4 * userRegs.length) } := by
  refine runs_saves fun p hp => ?_
  obtain ⟨hoff, haligned, -⟩ := userRegs_places p hp
  rw [hr.a0, hr.satp, hr.mode]
  exact hs.access (by decide) hoff haligned

theorem loads (hr : Ready usatp h) : runs env (Rv64.loads .a0 userRegs) h = some { h with
    reg := updates h.reg (userRegs.map fun p => (p.1, h.mem (tf + p.2)))
    pc := h.pc + BitVec.ofNat 64 (4 * userRegs.length) } := by
  refine runs_loads (fun p hp => ?_) fun p hp => (userRegs_places p hp).2.2
  obtain ⟨hoff, haligned, -⟩ := userRegs_places p hp
  rw [hr.a0, hr.satp, hr.mode]
  exact hs.access (by decide) hoff haligned

end Spaces

/-! ## From user mode to the kernel -/

section FromUser

variable (hs : Spaces env ksatp usatp tf page)

include hs

end FromUser

/-! ## From the kernel to user mode -/

section ToUser

variable (hs : Spaces env ksatp usatp tf page)

include hs

end ToUser

/-! ## The whole way -/

section Whole

variable {kstack usertrap pgt hartid : Uint64}

/-- The hart at the first instruction of `userret`. -/
def leaving (h : Hart) (epc satp : Uint64) : Hart :=
  let h := { h.setCsr .sepc epc with spp := .user, spie := true }
  let h := ((h.set .a0 TRAPFRAME).set .a1 satp).set .a2 (TRAMPOLINE &&& ~~~3)
  { h with pc := TRAMPOLINE + BitVec.ofNat 64 (4 * uservec.length) }

/-- What a process cannot change. -/
structure Kept (tf : Uint64) (u u' : Hart) : Prop where
  mode : u'.mode = u.mode
  csr : u'.csr = u.csr
  frame : ∀ off : Uint64, off < 288 → u'.mem (tf + off) = u.mem (tf + off)

/-- A step of the process in user mode leaves its trapframe alone. -/
theorem Kept.step {u u' u'' : Hart} (hk : Kept tf u u') (hs : Spaces env ksatp usatp tf page)
    (hsatp : u.csr .satp = usatp)
    (hstep : UserStep env u' u'') : Kept tf u u'' := by
  cases hstep with
  | run reg pc => exact ⟨hk.mode, hk.csr, hk.frame⟩
  | store v hpa =>
    rename_i va pa
    refine ⟨hk.mode, hk.csr, fun off hoff => (Function.update_of_ne (fun heq => ?_) _ _).trans
      (hk.frame off hoff)⟩
    rw [hk.csr, hsatp] at hpa
    refine hs.others va pa hpa ?_
    rw [← heq, place_sub]
    exact hoff

end Whole

end SignalOS.Trampoline
