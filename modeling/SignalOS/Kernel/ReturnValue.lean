import SignalOS.Kernel.Step
import SignalOS.Signal.Delivery

/-!
# The return value of a call that replaces the context

`sys_sigreturn` and `exec` install a whole user context, and `syscall()` then
stores their return value in `a0`.
-/

namespace SignalOS

open Partial

/-- The strings `sys_exec` hands to `exec`. -/
def execArgs (k : Kernel) (i : Slot) (argv : Uint64) : Option (List (List Byte)) := do
  let mm ← (k.pool i).mm
  let (_, vm) ← kallocStr k.vm
  let ((_, _, args), _) ← readArgs mm argv MAXARG vm
  return args

/-- The `a0` of the context that the call of the process installs, when it succeeds: the saved
register for `SYS_sigreturn` and `argc` for `SYS_exec`. -/
def installedA0 (k : Kernel) (i : Slot) : Option Uint64 :=
  let tf := (k.pool i).trapframe
  match Sysno.ofId (toInt tf.a7) with
  | some .sigreturn => (k.pool i).mm.bind fun mm =>
      let r := copyFromUser k.vm mm (tf.sp + BitVec.ofNat 64 sizeofSiginfo) sizeofUcontext
      if r.1 < 0 then none else some ((Ucontext.ofBytes r.2).ucMcontext.regs 10)
  | some .exec => (sysExec i tf.a0 tf.a1 k).bind fun r =>
      if r.1 < 0 then none else (execArgs k i tf.a1).map fun args => BitVec.ofNat 64 args.length
  | _ => none

/-- A call that returns leaves its result in `a0`. -/
theorem syscall_ret {k k1 k' : Kernel} {i : Slot} {o : Outcome} {r : Uint64}
    (hswitch : syscallSwitch i (k.pool i).trapframe k = some (.ret r, k1))
    (h : syscall i k = some (o, k')) : (k'.pool i).trapframe.a0 = r := by
  simp only [syscall, bind_eq_some, getProc_eq_some] at h
  obtain ⟨_, _, ⟨rfl, rfl⟩, o1, k3, hswitch', h⟩ := h
  rw [hswitch] at hswitch'
  cases hswitch'
  simp only [setReturn, bind_eq_some, modifyProc_eq_some, pure_eq_some] at h
  obtain ⟨_, _, rfl, -, rfl⟩ := h
  rw [Kernel.setProc_pool_self]

/-! ## `exec` -/

theorem readArgs_length (mm : Mm) (argv : Uint64) (entries : Nat) :
    Returns (fun r => r.2.2.length ≤ entries) (readArgs mm argv entries) := by
  induction entries generalizing argv with
  | zero => exact .fail
  | succ entries ih =>
    rw [readArgs]
    refine .bind fun vm => ?_
    dsimp only
    split
    · exact .pure (Nat.zero_le _)
    split
    · exact .pure (Nat.zero_le _)
    refine .bind fun obj => .bind fun vm => ?_
    split
    · split
      · exact .fail
      · exact .pure (Nat.zero_le _)
    · refine .bind_of (ih (argv + 8)) ?_
      rintro ⟨ret, objs, args⟩ hlen
      exact .pure (Nat.succ_le_succ hlen)

/-- The process after a successful `exec`. -/
def Proc.exec (p : Proc) (img : Image) (eEntry : Uint64) (argc : Nat) : Proc :=
  { p.installImage img eEntry argc with signal := siginitExec p.signal }

/-- `exec` fails and leaves the process alone, or it replaces the program and returns the number of
arguments. -/
theorem exec_cases {k k' : Kernel} {i : Slot} {name : List Byte} {args : List (List Byte)}
    {ret : Int}
    (h : exec i name args k = some (ret, k')) :
    ∃ vm, (ret < 0 ∧ k' = { k with vm := vm }) ∨
      ∃ img eEntry, ret = toInt (BitVec.ofNat 64 args.length) ∧
        k' = { k.setProc i ((k.pool i).exec img eEntry args.length) with vm := vm } := by
  simp only [exec, get_bind] at h
  cases hfind : getElf k.userApps name with
  | none =>
    simp only [hfind, pure_eq_some] at h
    obtain ⟨rfl, rfl⟩ := h
    exact ⟨k'.vm, .inl ⟨by decide, rfl⟩⟩
  | some app =>
    simp only [hfind, getProc_bind, bind_eq_some (x := liftVm _), liftVm_eq_some] at h
    obtain ⟨⟨ret1, p⟩, k1, ⟨vm, hload, rfl⟩, h⟩ := h
    refine ⟨vm, ?_⟩
    rcases loadUserElf_cases app (k.pool i) args _ _ _ hload with ⟨hneg, -⟩ | ⟨hret, img, himg⟩
    · simp only [if_pos hneg, pure_eq_some] at h
      obtain ⟨rfl, rfl⟩ := h
      exact .inl ⟨hneg, rfl⟩
    · simp only at hret himg
      simp only [hret, lt_irrefl, if_false, modifyProc_bind, pure_eq_some] at h
      obtain ⟨rfl, rfl⟩ := h
      exact .inr ⟨img, app.eEntry, himg ▸ rfl, himg ▸ rfl⟩

/-- `sys_exec` fails and leaves the process alone, or it replaces the program and returns the
number of strings it read. -/
theorem sysExec_cases {k k' : Kernel} {i : Slot} {path argv : Uint64} {ret : Int}
    (h : sysExec i path argv k = some (ret, k')) :
    ∃ vm, (ret < 0 ∧ k' = { k with vm := vm }) ∨
      ∃ args img eEntry, execArgs k i argv = some args ∧ args.length ≤ MAXARG ∧
        ret = toInt (BitVec.ofNat 64 args.length) ∧
        k' = { k.setProc i ((k.pool i).exec img eEntry args.length) with vm := vm } := by
  simp only [sysExec, bind_eq_some (x := liftVm kallocStr), liftVm_eq_some,
    bind_eq_some (x := getMm _),
    getMm_eq_some, get_bind] at h
  obtain ⟨kpath, _, ⟨vm1, hstr, rfl⟩, mm, _, ⟨hmm, rfl⟩, h⟩ := h
  split at h
  · rename_i hneg
    simp only [bind_eq_some, liftVm_eq_some, pure_eq_some] at h
    obtain ⟨_, _, ⟨vm, -, rfl⟩, rfl, rfl⟩ := h
    exact ⟨vm, .inl ⟨hneg, rfl⟩⟩
  · simp only [bind_eq_some (x := liftVm _), liftVm_eq_some] at h
    obtain ⟨⟨ret1, objs, args⟩, _, ⟨vm2, hargs, rfl⟩, h⟩ := h
    have hread : execArgs k i argv = some args := by
      have hmm : (k.pool i).mm = some mm := hmm
      simp only [execArgs, hmm, hstr, hargs, bind, Option.bind_some, pure]
    have hlen := readArgs_length mm argv MAXARG _ _ _ hargs
    by_cases hneg : ret1 < 0
    · simp only [if_pos hneg, bind_eq_some, liftVm_eq_some, pure_eq_some] at h
      obtain ⟨_, _, ⟨rfl, rfl⟩, _, _, ⟨vm3, -, rfl⟩, _, _, ⟨vm4, -, rfl⟩, rfl, rfl⟩ := h
      exact ⟨vm4, .inl ⟨hneg, rfl⟩⟩
    · simp only [if_neg hneg, bind_eq_some, liftVm_eq_some, pure_eq_some] at h
      obtain ⟨_, _, hexec, _, _, ⟨vm3, -, rfl⟩, _, _, ⟨vm4, -, rfl⟩, rfl, rfl⟩ := h
      obtain ⟨vm, ⟨hret, rfl⟩ | ⟨img, eEntry, hret, rfl⟩⟩ := exec_cases hexec
      · exact ⟨vm4, .inl ⟨hret, rfl⟩⟩
      · exact ⟨vm4, .inr ⟨args, img, eEntry, hread, hlen, hret, rfl⟩⟩

/-- A `sys_exec` that succeeds returns the number of strings it read. -/
theorem sysExec_returns {k k' : Kernel} {i : Slot} {path argv : Uint64} {ret : Int}
    (h : sysExec i path argv k = some (ret, k')) (hret : ¬ ret < 0) :
    ∃ args, execArgs k i argv = some args ∧ args.length ≤ MAXARG ∧
      ret = toInt (BitVec.ofNat 64 args.length) := by
  obtain ⟨vm, ⟨hneg, -⟩ | ⟨args, img, eEntry, hargs, hlen, hcount, -⟩⟩ := sysExec_cases h
  · exact absurd hneg hret
  · exact ⟨args, hargs, hlen, hcount⟩

/-- The conversions of a small count from register to `int` and back. -/
theorem ofInt_toInt_ofNat {n : Nat} (h : n ≤ MAXARG) :
    ofInt (toInt (BitVec.ofNat 64 n)) = BitVec.ofNat 64 n := by
  have hall : ∀ m : Fin 33, ofInt (toInt (BitVec.ofNat 64 m)) = BitVec.ofNat 64 m := by decide
  exact hall ⟨n, Nat.lt_succ_of_le h⟩

theorem toInt_ofNat_nonneg {n : Nat} (h : n ≤ MAXARG) : 0 ≤ toInt (BitVec.ofNat 64 n) := by
  have hall : ∀ m : Fin 33, 0 ≤ toInt (BitVec.ofNat 64 m) := by decide
  exact hall ⟨n, Nat.lt_succ_of_le h⟩

/-! ## `sigreturn` -/

theorem onCaller_returns {k k' : Kernel} {i : Slot} {f : Mm → Proc → Vm → Int × Proc × Vm}
    {ret : Int} {mm : Mm} (hmm : (k.pool i).mm = some mm) (h : onCaller i f k = some (ret, k')) :
    ret = (f mm (k.pool i) k.vm).1 := by
  simp only [onCaller, bind_eq_some, getMm_eq_some, getProc_eq_some, get_eq_some,
    pure_eq_some] at h
  obtain ⟨_, _, ⟨hmm', rfl⟩, _, _, ⟨rfl, rfl⟩, _, _, ⟨rfl, rfl⟩, _, _, -, _, _, -, rfl, -⟩ := h
  rw [hmm] at hmm'
  cases hmm'
  rfl

/-- A frame that can be read is restored with the result 0. -/
theorem sysSigreturn_result {mm : Mm} {p : Proc} {vm : Vm}
    (h : ¬ (copyFromUser vm mm (p.trapframe.sp + BitVec.ofNat 64 sizeofSiginfo)
      sizeofUcontext).1 < 0) : (sysSigreturn mm p vm).1 = 0 := by
  rw [sysSigreturn]
  exact congrArg Prod.fst (if_neg h)

/-- **`syscall()` keeps the installed `a0` exactly for `SYS_exec` and for a frame whose saved
`a0` is 0.** -/
theorem syscall_keeps_a0_iff (k k' : Kernel) (i : Slot) (o : Outcome) (a0 : Uint64)
    (hinst : installedA0 k i = some a0) (h : syscall i k = some (o, k')) :
    (k'.pool i).trapframe.a0 = a0 ↔
      Sysno.ofId (toInt (k.pool i).trapframe.a7) = some .exec ∨ a0 = 0 := by
  have hcall := h
  simp only [syscall, bind_eq_some, getProc_eq_some] at h
  obtain ⟨_, _, ⟨rfl, rfl⟩, o1, k1, hswitch, -⟩ := h
  have hrun := hswitch
  rw [installedA0] at hinst
  rw [syscallSwitch] at hswitch
  split at hinst
  · rename_i hid
    simp only [hid, bind_eq_some, pure_eq_some] at hswitch
    obtain ⟨ret, _, hret, rfl, rfl⟩ := hswitch
    obtain ⟨mm, hmm, hinst⟩ := Option.bind_eq_some_iff.1 hinst
    dsimp only at hinst
    split at hinst
    · cases hinst
    · rename_i hcopied
      have hzero : ret = 0 := (onCaller_returns hmm hret).trans (sysSigreturn_result hcopied)
      have hreturn : ofInt 0 = 0 := rfl
      cases hinst
      rw [syscall_ret hrun hcall, hzero, hid, hreturn]
      exact ⟨fun h => .inr h.symm, fun h => (h.resolve_left (by decide)).symm⟩
  · rename_i hid
    simp only [hid, bind_eq_some, pure_eq_some] at hswitch
    obtain ⟨ret, _, hret, rfl, rfl⟩ := hswitch
    obtain ⟨⟨_, _⟩, hret', hinst⟩ := Option.bind_eq_some_iff.1 hinst
    rw [hret] at hret'
    cases hret'
    dsimp only at hinst
    split at hinst
    · cases hinst
    · rename_i hneg
      obtain ⟨args, hargs, hlen, hcount⟩ := sysExec_returns hret hneg
      rw [hargs] at hinst
      cases hinst
      rw [syscall_ret hrun hcall, hcount, ofInt_toInt_ofNat hlen]
      exact iff_of_true rfl (.inl hid)
  · cases hinst

/-- A process that was interrupted with `a0` in its register. -/
def interrupted (a0 : Uint64) : Proc :=
  { stackProc (sigmask SIGUSR0) 0 with trapframe := { Trapframe.zero with
    sp := 0x5800, a0 := a0 } }

/-- The process has run its handler and calls `sys_sigreturn`. -/
def returning (a0 : Uint64) : Kernel :=
  let d := doSignal stackMm (interrupted a0) stackVm
  (boot ⟨d.vm, [], fun _ => 0, fun _ => .zero⟩).setProc 0
    { d.proc with trapframe := { d.proc.trapframe with a7 := ofInt Sysno.sigreturn.id } }

theorem syscall_keeps_a0_iff_returning :
    ∃ r, syscall 0 (returning 7) = some r ∧ ((r.2.pool 0).trapframe.a0 = 7 ↔
      Sysno.ofId (toInt ((returning 7).pool 0).trapframe.a7) = some .exec ∨ (7 : Uint64) = 0) := by
  have hinst : installedA0 (returning 7) 0 = some 7 := by decide +kernel
  have hsome : (syscall 0 (returning 7)).isSome = true := by decide +kernel
  obtain ⟨⟨o, k'⟩, hcall⟩ := Option.isSome_iff_exists.1 hsome
  exact ⟨(o, k'), hcall, syscall_keeps_a0_iff _ _ _ _ _ hinst hcall⟩

/-- A process interrupted with 7 in `a0` goes on with 0. -/
theorem sigreturn_loses_a0 :
    ¬ ∀ (k k' : Kernel) (i : Slot) (o : Outcome) (a0 : Uint64),
      installedA0 k i = some a0 → syscall i k = some (o, k') → (k'.pool i).trapframe.a0 = a0 := by
  intro hall
  have hinst : installedA0 (returning 7) 0 = some 7 := by decide +kernel
  have ha0 : (syscall 0 (returning 7)).map (fun r => (r.2.pool 0).trapframe.a0) = some 0 := by
    decide +kernel
  obtain ⟨⟨o, k'⟩, hcall, hzero⟩ := Option.map_eq_some_iff.1 ha0
  have hseven : (0 : Uint64) = 7 := hzero.symm.trans (hall _ _ _ _ _ hinst hcall)
  exact absurd hseven (by decide)

end SignalOS
