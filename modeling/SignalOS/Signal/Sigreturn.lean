import SignalOS.Signal.Delivery
import SignalOS.Signal.Sigcalls

/-!
# Returning from a handler

What `sys_sigreturn` makes of the frame that `do_signal` wrote.

* `sysSigreturn_of_context` — a saved context in user memory is restored.
* `sysSigreturn_of_held` — so is one in a whole frame.
* `sysSigreturn_of_frame` — **returning from a handler restores the interrupted context**,
  except for `t6`, for which the frame has no room.
* `sigreturn_restores_iff` — so the context is restored exactly if `t6` was zero.
-/

namespace SignalOS

/-- `sys_sigreturn` on a context that user memory holds above the stack pointer. -/
theorem sysSigreturn_of_context {mm : Mm} {q : Proc} {vm : Vm} {uc : Ucontext}
    (h : ∀ (j : Nat) (hj : j < uc.toBytes.length),
      userByte vm mm (ucAddr q.trapframe.sp + BitVec.ofNat 64 j) = some uc.toBytes[j]) :
    sysSigreturn mm q vm = (0, { q.setSigmask uc.ucSigmask with trapframe := uc.restore }) := by
  have hcopy := copyFromUser_eq_of_userByte h
  rw [Ucontext.length_toBytes, ucAddr] at hcopy
  simp only [sysSigreturn, hcopy, lt_irrefl, if_false, Ucontext.ofBytes_toBytes]

/-- `sys_sigreturn` with a whole frame at the stack pointer. -/
theorem sysSigreturn_of_held {mm : Mm} {q : Proc} {vm : Vm} {mask : Sigset} {tf : Trapframe}
    {info : Siginfo}
    (h : ∀ (i : Nat) (hi : i < (frameBytes (Ucontext.save mask tf) info).length),
      userByte vm mm (q.trapframe.sp + BitVec.ofNat 64 i) =
        some (frameBytes (Ucontext.save mask tf) info)[i]) :
    sysSigreturn mm q vm = (0, { q.setSigmask mask with trapframe := { tf with t6 := 0 } }) := by
  set uc := Ucontext.save mask tf with huc
  have hbytes : ∀ (j : Nat) (hj : j < uc.toBytes.length),
      userByte vm mm (ucAddr q.trapframe.sp + BitVec.ofNat 64 j) = some uc.toBytes[j] := by
    intro j hj
    have hlt : sizeofSiginfo + j < (frameBytes uc info).length := by
      rw [length_frameBytes, sizeofFrame]
      rw [Ucontext.length_toBytes] at hj
      omega
    have hget : (frameBytes uc info)[sizeofSiginfo + j] = uc.toBytes[j] := by
      simp only [frameBytes]
      rw [List.getElem_append_right (by simp)]
      simp
    rw [ucAddr, BitVec.add_assoc, ← BitVec.ofNat_add, h _ hlt, hget]
  rw [sysSigreturn_of_context hbytes, huc, Ucontext.restore_save]
  rfl

/-- The frame of a handler, as `do_signal` left it, is in user memory `vm'`. -/
def FrameIntact (vm : Vm) (mm : Mm) (vm' : Vm) (mm' : Mm) (newSp : Uint64) : Prop :=
  ∀ i < sizeofFrame, userByte vm' mm' (newSp + BitVec.ofNat 64 i) =
    userByte vm mm (newSp + BitVec.ofNat 64 i)

/-- **Returning from a handler.**  Whatever the handler did to the registers and the mask, with
the frame intact and its stack pointer restored `sys_sigreturn` brings back the context and
the mask of the entry to `do_signal`, with `t6` set to zero. -/
theorem sysSigreturn_of_frame {mm mm' : Mm} {p q : Proc} {vm vm' : Vm} {signo : Signo}
    (hinst : (doSignal mm p vm).handler = some signo)
    (hsp : q.trapframe.sp = (doSignal mm p vm).proc.trapframe.sp)
    (hframe : FrameIntact (doSignal mm p vm).vm mm vm' mm' q.trapframe.sp) :
    sysSigreturn mm' q vm' =
      (0, { q.setSigmask p.signal.sigmask with trapframe := { p.trapframe with t6 := 0 } }) := by
  obtain ⟨-, -, hmap, hctx, hvm⟩ := doSignal_installed hinst
  have hnewSp : q.trapframe.sp = frameSp p.trapframe.sp := by
    rw [hsp, hctx.trapframe_eq]
    rfl
  refine @sysSigreturn_of_held mm' q vm' _ _ (p.signal.siginfos signo) fun i hi => ?_
  rw [hframe i (by rwa [length_frameBytes] at hi), hvm, hnewSp, userByte_frameStored hmap signo hi]

/-- After a call of `sys_sigreturn` the registers and the mask are those of `p`. -/
def Restored (p : Proc) (r : Int × Proc) : Prop :=
  r.2.trapframe = p.trapframe ∧ r.2.signal.sigmask = p.signal.sigmask

/-- **The round trip is the identity exactly if `t6` was zero.** -/
theorem sigreturn_restores_iff {mm mm' : Mm} {p q : Proc} {vm vm' : Vm} {signo : Signo}
    (hinst : (doSignal mm p vm).handler = some signo)
    (hsp : q.trapframe.sp = (doSignal mm p vm).proc.trapframe.sp)
    (hframe : FrameIntact (doSignal mm p vm).vm mm vm' mm' q.trapframe.sp) :
    Restored p (sysSigreturn mm' q vm') ↔ p.trapframe.t6 = 0 := by
  rw [sysSigreturn_of_frame hinst hsp hframe, Restored]
  constructor
  · rintro ⟨htf, -⟩
    exact (congrArg Trapframe.t6 htf).symm
  · intro ht6
    refine ⟨?_, rfl⟩
    rw [← ht6]

/-- The handler of a small process returns at once. -/
theorem sigreturn_restores_stackProc :
    (doSignal stackMm (stackProc (sigmask SIGUSR0) 0) stackVm).handler = some SIGUSR0 ∧
      (Restored (stackProc (sigmask SIGUSR0) 0)
          (sysSigreturn stackMm (doSignal stackMm (stackProc (sigmask SIGUSR0) 0) stackVm).proc
            (doSignal stackMm (stackProc (sigmask SIGUSR0) 0) stackVm).vm) ↔
        (stackProc (sigmask SIGUSR0) 0).trapframe.t6 = 0) := by
  have hinst : (doSignal stackMm (stackProc (sigmask SIGUSR0) 0) stackVm).handler =
      some SIGUSR0 := by
    decide +kernel
  exact ⟨hinst, sigreturn_restores_iff hinst rfl fun _ _ => rfl⟩

/-- A handler that returns at once loses a `t6` of 1. -/
theorem sigreturn_loses_t6 :
    ¬ ∀ (mm mm' : Mm) (p q : Proc) (vm vm' : Vm) (signo : Signo),
      (doSignal mm p vm).handler = some signo →
      q.trapframe.sp = (doSignal mm p vm).proc.trapframe.sp →
      FrameIntact (doSignal mm p vm).vm mm vm' mm' q.trapframe.sp →
      Restored p (sysSigreturn mm' q vm') := by
  intro hall
  have hinst : (doSignal stackMm (stackProc (sigmask SIGUSR0) 1) stackVm).handler =
      some SIGUSR0 := by
    decide +kernel
  have hrest := hall stackMm stackMm (stackProc (sigmask SIGUSR0) 1) _ stackVm _ SIGUSR0 hinst rfl
    fun _ _ => rfl
  rw [sysSigreturn_of_frame hinst rfl fun _ _ => rfl] at hrest
  have ht6 : (0 : Uint64) = 1 := congrArg Trapframe.t6 hrest.1
  exact absurd ht6 (by decide)

end SignalOS
