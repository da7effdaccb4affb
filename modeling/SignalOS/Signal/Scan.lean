import SignalOS.Signal.Delivery

/-!
# What becomes of each pending signal

`do_signal` looks at every pending signal once.

* `doSignalLoop_killed`, `doSignalLoop_needStop` — what the rest of a scan can do to
  a mark that was set in it.
* `ActionTaken` — the action of a signal was taken in a call.
* `doSignal_delPending` — **a blocked signal has no influence on a call**.
* `doSignal_accounts` — **no signal is dropped silently**: one that is no longer pending
  had its action taken, or had a handler whose frame could not be written.
-/

namespace SignalOS

/-! ## Marks survive the rest of the scan -/

/-- A process marked killed stays so. -/
theorem doSignalLoop_killed {mm : Mm} {signos : List Signo} {p : Proc} {vm : Vm}
    (h : p.killed ≠ 0) : (doSignalLoop mm signos p vm).proc.killed ≠ 0 := by
  induction signos generalizing p vm with
  | nil => exact h
  | cons signo rest ih =>
    have hcases := doSignalTurn_cases mm signo p vm
    rw [doSignalLoop]
    generalize doSignalTurn mm signo p vm = turn at hcases
    have hneg (n : Signo) : (-10 - n.val : Int) ≠ 0 := by omega
    cases hcases with
    | notPending => exact ih h
    | kill => exact ih (hneg SIGKILL)
    | stop => exact ih h
    | cont => exact ih h
    | masked => exact ih h
    | ignored => exact ih h
    | default => exact ih (hneg signo)
    | discarded => exact ih h
    | installed => exact h

/-- With no stop request left, `need_stop` stays clear. -/
theorem doSignalLoop_needStop_zero {mm : Mm} {signos : List Signo} {p : Proc} {vm : Vm}
    (h : p.needStop = 0) (hstop : p.pending SIGSTOP = false) :
    (doSignalLoop mm signos p vm).proc.needStop = 0 := by
  induction signos generalizing p vm with
  | nil => exact h
  | cons signo rest ih =>
    have hdel (q : Proc) (n : Signo) (hq : q.pending SIGSTOP = false) :
        (q.delPending n).pending SIGSTOP = false := by
      rw [Proc.pending_delPending, hq, Bool.false_and]
    have hcases := doSignalTurn_cases mm signo p vm
    rw [doSignalLoop]
    generalize doSignalTurn mm signo p vm = turn at hcases
    cases hcases with
    | notPending => exact ih h hstop
    | kill => exact ih h (hdel p _ hstop)
    | stop hpend => exact absurd hpend (by rw [hstop]; exact Bool.false_ne_true)
    | cont => exact ih rfl (hdel _ SIGSTOP (hdel p SIGCONT hstop))
    | masked => exact ih h hstop
    | ignored => exact ih h (hdel p _ hstop)
    | default => exact ih h (hdel p _ hstop)
    | discarded => exact ih h (hdel p _ hstop)
    | installed => exact h

/-- A stop request that was taken up is kept, unless a pending `SIGCONT` cancels it. -/
theorem doSignalLoop_needStop_one {mm : Mm} {signos : List Signo} {p : Proc} {vm : Vm}
    (h : p.needStop = 1) :
    (doSignalLoop mm signos p vm).proc.needStop = 1 ∨
      (p.pending SIGCONT = true ∧ (doSignalLoop mm signos p vm).proc.needStop = 0) := by
  induction signos generalizing p vm with
  | nil => exact .inl h
  | cons signo rest ih =>
    have hstep {q : Proc} (hq : q.needStop = 1)
        (hback : q.pending SIGCONT = true → p.pending SIGCONT = true) :
        (doSignalLoop mm rest q vm).proc.needStop = 1 ∨
          (p.pending SIGCONT = true ∧ (doSignalLoop mm rest q vm).proc.needStop = 0) :=
      (ih hq).imp_right fun hcont => ⟨hback hcont.1, hcont.2⟩
    have hdel (n : Signo) (hq : (p.delPending n).pending SIGCONT = true) :
        p.pending SIGCONT = true := by
      rw [Proc.pending_delPending, Bool.and_eq_true] at hq
      exact hq.1
    have hcases := doSignalTurn_cases mm signo p vm
    rw [doSignalLoop]
    generalize doSignalTurn mm signo p vm = turn at hcases
    cases hcases with
    | notPending => exact hstep h id
    | kill => exact hstep h (hdel SIGKILL)
    | stop => exact hstep rfl (hdel SIGSTOP)
    | cont hpend => exact .inr ⟨hpend, doSignalLoop_needStop_zero rfl (by simp)⟩
    | masked => exact hstep h id
    | ignored => exact hstep h (hdel signo)
    | default => exact hstep h (hdel signo)
    | discarded => exact hstep h (hdel signo)
    | installed => exact .inl h

/-! ## Blocked signals -/

/-- The turn with the process changed by `f`. -/
def Turn.map (f : Proc → Proc) : Turn → Turn
  | .next p vm => .next (f p) vm
  | .installed p vm => .installed (f p) vm

theorem Proc.delPending_comm (p : Proc) (m n : Signo) :
    (p.delPending m).delPending n = (p.delPending n).delPending m := by
  have hbits : sigdelset (sigdelset p.signal.sigpending m) n
      = sigdelset (sigdelset p.signal.sigpending n) m := by
    simp only [sigdelset, BitVec.and_assoc]
    rw [BitVec.and_comm (~~~((1 : Uint64) <<< m.val))]
  simp only [Proc.delPending, hbits]

/-- A turn goes the same way with and without a blocked signal pending. -/
theorem doSignalTurn_delPending {mm : Mm} {signo n : Signo} {p : Proc} {vm : Vm}
    (hmask : p.masked signo = true) (hblock : ¬ Unblockable signo) :
    doSignalTurn mm n (p.delPending signo) vm =
      (doSignalTurn mm n p vm).map fun q => q.delPending signo := by
  have hne : signo ≠ SIGKILL ∧ signo ≠ SIGSTOP ∧ signo ≠ SIGCONT := by
    simpa only [Unblockable, not_or] using hblock
  have hpend {m : Signo} (hm : m ≠ signo) (h : p.pending m = true) :
      (p.delPending signo).pending m = true := by simp [hm, h]
  have hdel (h : Deliverable p n) : Deliverable (p.delPending signo) n := by
    have hn : n ≠ signo := by
      rintro rfl
      exact absurd hmask (by rw [h.unmasked]; exact Bool.false_ne_true)
    exact ⟨hpend hn h.pending, h.blockable, h.unmasked⟩
  apply TurnCase.turn_eq
  have hcases := doSignalTurn_cases mm n p vm
  generalize doSignalTurn mm n p vm = turn at hcases ⊢
  cases hcases with
  | notPending h => exact .notPending (by simp [h])
  | kill h hsig =>
    have hcomm : Proc.delPending { p.delPending SIGKILL with killed := -10 - SIGKILL.val } signo
        = { (p.delPending signo).delPending SIGKILL with killed := -10 - SIGKILL.val } := by
      rw [Proc.delPending_comm p signo]
      rfl
    rw [Turn.map, hcomm]
    exact .kill (hpend hne.1.symm h) hsig
  | stop h hsig =>
    have hcomm : Proc.delPending { p.delPending SIGSTOP with needStop := 1 } signo
        = { (p.delPending signo).delPending SIGSTOP with needStop := 1 } := by
      rw [Proc.delPending_comm p signo]
      rfl
    rw [Turn.map, hcomm]
    exact .stop (hpend hne.2.1.symm h) hsig
  | cont h hsig =>
    have hcomm : ((p.delPending SIGCONT).cancelStop.delPending SIGSTOP).delPending signo
        = ((p.delPending signo).delPending SIGCONT).cancelStop.delPending SIGSTOP := by
      rw [Proc.delPending_comm _ SIGSTOP, Proc.delPending_comm p signo]
      rfl
    rw [Turn.map, hcomm]
    exact .cont (hpend hne.2.2.symm h) hsig
  | masked hblock' hmask' => exact .masked hblock' hmask'
  | ignored h hign =>
    rw [Turn.map, Proc.delPending_comm]
    exact .ignored (hdel h) hign
  | default h hdfl hchld =>
    have hcomm : Proc.delPending { p.delPending n with killed := -10 - n.val } signo
        = { (p.delPending signo).delPending n with killed := -10 - n.val } := by
      rw [Proc.delPending_comm p signo]
      rfl
    rw [Turn.map, hcomm]
    exact .default (hdel h) hdfl hchld
  | discarded h hsa hmap =>
    rw [Turn.map, Proc.delPending_comm]
    exact .discarded (hdel h) hsa hmap
  | installed h hsa hmap =>
    have hcomm : ((p.delPending n).enterHandler n).delPending signo
        = ((p.delPending signo).delPending n).enterHandler n := by
      rw [Proc.delPending_comm p signo]
      rfl
    rw [Turn.map, hcomm]
    exact .installed (hdel h) hsa hmap

/-- **A blocked signal has no influence**: a call goes the same way with and without it pending. -/
theorem doSignalLoop_delPending {mm : Mm} {signo : Signo} {signos : List Signo} {p : Proc}
    {vm : Vm} (hmask : p.masked signo = true) (hblock : ¬ Unblockable signo) :
    let d := doSignalLoop mm signos p vm
    doSignalLoop mm signos (p.delPending signo) vm = ⟨d.handler, d.proc.delPending signo,
      d.vm⟩ := by
  induction signos generalizing p vm with
  | nil => rfl
  | cons n rest ih =>
    dsimp only
    rw [doSignalLoop, doSignalLoop, doSignalTurn_delPending hmask hblock]
    cases hturn : doSignalTurn mm n p vm with
    | next q vm' =>
      obtain ⟨hbook, -⟩ := bookkeeping_of_next hturn
      exact ih ((hbook.masked_eq signo).trans hmask)
    | installed q vm' => rfl

/-- A blocked signal stays pending. -/
theorem doSignalLoop_masked_pending {mm : Mm} {signo : Signo} {signos : List Signo} {p : Proc}
    {vm : Vm} (hmask : p.masked signo = true) (hblock : ¬ Unblockable signo) :
    (doSignalLoop mm signos p vm).proc.pending signo = p.pending signo := by
  simp only [Unblockable, not_or] at hblock
  induction signos generalizing p vm with
  | nil => rfl
  | cons n rest ih =>
    have hne (h : Deliverable p n) : signo ≠ n := by
      rintro rfl
      exact absurd hmask (by rw [h.unmasked]; exact Bool.false_ne_true)
    have hcases := doSignalTurn_cases mm n p vm
    rw [doSignalLoop]
    generalize doSignalTurn mm n p vm = turn at hcases
    have hstep {q : Proc} (hq : q.masked signo = true)
        (hpend : q.pending signo = p.pending signo) :
        (doSignalLoop mm rest q vm).proc.pending signo = p.pending signo := (ih hq).trans hpend
    have hdel {m : Signo} (h : signo ≠ m) : (p.delPending m).pending signo = p.pending signo := by
      simp [h]
    cases hcases with
    | notPending => exact hstep hmask rfl
    | kill => exact hstep hmask (hdel hblock.1)
    | stop => exact hstep hmask (hdel hblock.2.1)
    | cont =>
      refine hstep hmask ?_
      rw [Proc.pending_delPending, decide_eq_false hblock.2.1, Bool.not_false, Bool.and_true]
      exact hdel hblock.2.2
    | masked => exact hstep hmask rfl
    | ignored h => exact hstep hmask (hdel (hne h))
    | default h => exact hstep hmask (hdel (hne h))
    | discarded h => exact hstep hmask (hdel (hne h))
    | installed h => exact hdel (hne h)

/-! ## The action of a signal -/

/-- The handler of `signo` is about to run: its argument is set and its frame, with the context
and the mask of the entry to `do_signal`, is in user memory. -/
structure Handled (mm : Mm) (p : Proc) (d : Delivery) (signo : Signo) : Prop where
  handler : d.handler = some signo
  a0 : d.proc.trapframe.a0 = ofInt signo.val
  frame : ∀ (i : Nat) (hi : i < (frameBytes (Ucontext.save p.signal.sigmask p.trapframe)
      (p.signal.siginfos signo)).length),
    userByte d.vm mm (d.proc.trapframe.sp + BitVec.ofNat 64 i) =
      some (frameBytes (Ucontext.save p.signal.sigmask p.trapframe) (p.signal.siginfos signo))[i]

/-- The action of `signo`, pending in `p`, was taken in a call of `do_signal`. -/
inductive ActionTaken (mm : Mm) (p : Proc) (d : Delivery) (signo : Signo) : Prop
  /-- The process was marked killed. -/
  | killed (hsig : signo = SIGKILL ∨
        (Deliverable p signo ∧ (p.signal.sa signo).saSigaction = SIG_DFL ∧ signo ≠ SIGCHLD))
      (hmark : d.proc.killed ≠ 0)
  /-- `need_stop` was set. -/
  | stopRequested (hsig : signo = SIGSTOP) (hmark : d.proc.needStop = 1)
  /-- A `SIGCONT` that was pending as well cancelled the `SIGSTOP`. -/
  | stopCancelled (hsig : signo = SIGSTOP) (hcont : p.pending SIGCONT = true)
      (hmark : d.proc.needStop = 0)
  /-- `need_stop` was cleared. -/
  | continued (hsig : signo = SIGCONT) (hmark : d.proc.needStop = 0)
  /-- `SIG_IGN`, or the default of `SIGCHLD`. -/
  | ignored (h : Deliverable p signo) (hign : Ignored p signo)
  | handled (h : Deliverable p signo) (hh : Handled mm p d signo)

/-- The signal has a handler, but the page its frame goes to is not a valid user page. -/
def FrameFails (mm : Mm) (p : Proc) (vm : Vm) (signo : Signo) : Prop :=
  HasHandler p signo ∧ ¬ FrameMapped vm mm p

theorem Deliverable.of_next {mm : Mm} {n signo : Signo} {p q : Proc} {vm vm' : Vm}
    (h : doSignalTurn mm n p vm = .next q vm') (hq : Deliverable q signo) : Deliverable p signo :=
  ⟨pending_of_next h hq.pending, hq.blockable,
    ((bookkeeping_of_next h).1.masked_eq signo).symm.trans hq.unmasked⟩

/-- An action taken in the rest of a scan was taken in the scan. -/
theorem ActionTaken.of_next {mm : Mm} {n signo : Signo} {p q : Proc} {vm vm' : Vm} {d : Delivery}
    (hturn : doSignalTurn mm n p vm = .next q vm') (h : ActionTaken mm q d signo) :
    ActionTaken mm p d signo := by
  obtain ⟨hbook, -⟩ := bookkeeping_of_next hturn
  cases h with
  | killed hsig hmark =>
    refine .killed (hsig.imp_right fun hdfl => ⟨hdfl.1.of_next hturn, ?_, hdfl.2.2⟩) hmark
    rw [← hbook.sa_eq]
    exact hdfl.2.1
  | stopRequested hsig hmark => exact .stopRequested hsig hmark
  | stopCancelled hsig hcont hmark =>
    exact .stopCancelled hsig (pending_of_next hturn hcont) hmark
  | continued hsig hmark => exact .continued hsig hmark
  | ignored hdel hign => exact .ignored (hdel.of_next hturn) ((hbook.ignored_iff signo).1 hign)
  | handled hdel hh =>
    refine .handled (hdel.of_next hturn) ⟨hh.handler, hh.a0, ?_⟩
    have hframe := hh.frame
    rw [hbook.sigmask_eq, hbook.trapframe_eq, hbook.siginfos_eq] at hframe
    exact hframe

/-- A signal that a turn removes had its action taken in it, or its frame could not be written.
`d` is what the rest of the scan leaves. -/
theorem accounts_of_turn {mm : Mm} {n signo : Signo} {rest : List Signo} {p q : Proc} {vm vm' : Vm}
    (hturn : doSignalTurn mm n p vm = .next q vm') (hbefore : p.pending signo = true)
    (hafter : q.pending signo = false) :
    ActionTaken mm p (doSignalLoop mm rest q vm') signo ∨ FrameFails mm p vm signo := by
  have hcases := doSignalTurn_cases mm n p vm
  rw [hturn] at hcases
  -- a turn that deletes one signal deletes `signo` only if it is that one
  have hdel {m : Signo} (h : (p.delPending m).pending signo = false) : signo = m := by
    by_contra hne
    simp [hbefore, hne] at h
  have hneg (m : Signo) : (-10 - m.val : Int) ≠ 0 := by omega
  cases hcases with
  | notPending => exact absurd hbefore (by rw [hafter]; exact Bool.false_ne_true)
  | masked => exact absurd hbefore (by rw [hafter]; exact Bool.false_ne_true)
  | kill => exact .inl (.killed (.inl (hdel hafter)) (doSignalLoop_killed (hneg SIGKILL)))
  | stop =>
    rcases @doSignalLoop_needStop_one mm rest
      { p.delPending SIGSTOP with needStop := 1 } vm rfl with hone | ⟨hcont, hzero⟩
    · exact .inl (.stopRequested (hdel hafter) hone)
    · exact .inl (.stopCancelled (hdel hafter) (pending_of_next hturn hcont) hzero)
  | cont hpend =>
    have hzero := @doSignalLoop_needStop_zero mm rest
      ((p.delPending SIGCONT).cancelStop.delPending SIGSTOP) vm rfl (by simp)
    by_cases hstop : signo = SIGSTOP
    · exact .inl (.stopCancelled hstop hpend hzero)
    · refine .inl (.continued (hdel ?_) hzero)
      rw [Proc.pending_delPending, decide_eq_false hstop, Bool.not_false, Bool.and_true] at hafter
      exact hafter
  | ignored h hign =>
    obtain rfl := hdel hafter
    exact .inl (.ignored h hign)
  | default h hdfl hchld =>
    obtain rfl := hdel hafter
    exact .inl (.killed (.inr ⟨h, hdfl, hchld⟩) (doSignalLoop_killed (hneg signo)))
  | discarded h hsa hmap =>
    obtain rfl := hdel hafter
    exact .inr ⟨hsa, hmap⟩

theorem doSignalLoop_accounts {mm : Mm} {signo : Signo} {signos : List Signo} {p : Proc} {vm : Vm}
    (hbefore : p.pending signo = true)
    (hafter : (doSignalLoop mm signos p vm).proc.pending signo = false) :
    ActionTaken mm p (doSignalLoop mm signos p vm) signo ∨ FrameFails mm p vm signo := by
  induction signos generalizing p vm with
  | nil =>
    exact absurd hbefore (by rw [doSignalLoop] at hafter; rw [hafter]; exact Bool.false_ne_true)
  | cons n rest ih =>
    cases hturn : doSignalTurn mm n p vm with
    | next q vm' =>
      obtain ⟨hbook, rfl⟩ := bookkeeping_of_next hturn
      have hloop : doSignalLoop mm (n :: rest) p vm' = doSignalLoop mm rest q vm' := by
        rw [doSignalLoop, hturn]
      rw [hloop] at hafter ⊢
      cases hq : q.pending signo with
      | false => exact accounts_of_turn hturn hbefore hq
      | true =>
        rcases ih hq hafter with h | ⟨hsa, hmap⟩
        · exact .inl (h.of_next hturn)
        · exact .inr ⟨(hbook.hasHandler_iff signo).1 hsa,
            fun h => hmap ((hbook.frameMapped_iff vm' mm).2 h)⟩
    | installed q vm' =>
      have hloop : doSignalLoop mm (n :: rest) p vm = ⟨some n, q, vm'⟩ := by
        rw [doSignalLoop, hturn]
      have hcases := doSignalTurn_cases mm n p vm
      rw [hturn] at hcases
      rw [hloop] at hafter ⊢
      cases hcases with
      | installed h hsa hmap =>
        have hsigno : signo = n := by
          by_contra hne
          have hkeep : ((p.delPending n).enterHandler n).pending signo = p.pending signo := by
            change (p.delPending n).pending signo = p.pending signo
            simp [hne]
          rw [hkeep, hbefore] at hafter
          exact Bool.noConfusion hafter
        subst hsigno
        exact .inl (.handled h ⟨rfl, rfl, fun i hi => userByte_frameStored hmap signo hi⟩)

/-- **No signal is dropped silently and no blocked one is acted on.**  A signal that a call of
`do_signal` removes had its action taken, or had a handler whose frame cannot be written; a
call installs at most one handler; and a blocked signal stays pending and has no influence. -/
theorem doSignal_accounts (mm : Mm) (p : Proc) (vm : Vm) :
    let d := doSignal mm p vm
    (∀ signo, p.pending signo = true → d.proc.pending signo = false →
        ActionTaken mm p d signo ∨ FrameFails mm p vm signo) ∧
      ((d.handler = none ∧ Bookkeeping p d.proc ∧ d.vm = vm) ∨
        ∃ signo, d.handler = some signo ∧ Delivery.Installed mm p vm d signo) ∧
      ∀ signo, p.masked signo = true → ¬ Unblockable signo →
        d.proc.pending signo = p.pending signo ∧
          doSignal mm (p.delPending signo) vm = ⟨d.handler, d.proc.delPending signo, d.vm⟩ :=
  ⟨fun _ hbefore hafter => doSignalLoop_accounts hbefore hafter, doSignal_cases mm p vm,
    fun _ hmask hblock => ⟨doSignalLoop_masked_pending hmask hblock,
      doSignalLoop_delPending hmask hblock⟩⟩

/-- A process whose stack pointer is below its mapped pages. -/
def lowStackProc : Proc :=
  { stackProc (sigmask SIGUSR0) 0 with trapframe := { Trapframe.zero with sp := 0x3000 } }

/-- A signal with a handler vanishes when its frame cannot be written. -/
theorem doSignal_drops_signal :
    ¬ ∀ (mm : Mm) (p : Proc) (vm : Vm) (signo : Signo), p.pending signo = true →
      (doSignal mm p vm).proc.pending signo = false →
        ActionTaken mm p (doSignal mm p vm) signo := by
  intro hall
  have hafter : (doSignal stackMm lowStackProc stackVm).proc.pending SIGUSR0 = false := by
    decide +kernel
  have hkilled : (doSignal stackMm lowStackProc stackVm).proc.killed = 0 := by decide +kernel
  have hhandler : (doSignal stackMm lowStackProc stackVm).handler = none := by decide +kernel
  cases hall stackMm lowStackProc stackVm SIGUSR0 (by decide +kernel) hafter with
  | killed hsig hmark => exact hmark hkilled
  | stopRequested hsig => exact absurd hsig (by decide)
  | stopCancelled hsig => exact absurd hsig (by decide)
  | continued hsig => exact absurd hsig (by decide)
  | ignored h hign => exact absurd hign (by unfold Ignored; decide)
  | handled h hh => exact absurd hh.handler (by rw [hhandler]; simp)

end SignalOS
