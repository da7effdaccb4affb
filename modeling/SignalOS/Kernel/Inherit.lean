import SignalOS.Kernel.Siginfo
import SignalOS.Signal.Disposition

/-!
# What a process inherits

The signal state along a chain of forks and execs.

* `Quiet` — the steps that do not touch the signal state of a process;
  `step_quiet` — they leave it as it is.
* `Lineage` — a process and one that comes from it by quiet steps, forks and execs.
* `signals_inherited` — **what the second has from the first**, and that a signal the
  first ignores does nothing to the second.
-/

namespace SignalOS

open Partial Runs

variable {k k' : Kernel} {a : Act} {c : CpuId} {i j child : Slot} {p q : Proc} {signo : Signo}

/-! ## Steps that leave the signal state alone -/

/-- The process calls no `sigaction`, `sigprocmask` or `sigreturn`, and no `exec` that succeeds. -/
def QuietCall (k : Kernel) (j : Slot) : Prop :=
  (k.pool j).context = .syscall → ∀ n, Sysno.ofId (toInt (k.pool j).trapframe.a7) = some n →
    n ≠ .sigaction ∧ n ≠ .sigprocmask ∧ n ≠ .sigreturn ∧
      (n = .exec → ∀ ret k₁,
        sysExec j (k.pool j).trapframe.a0 (k.pool j).trapframe.a1 k = some (ret, k₁) → ret < 0)

/-- There is no call of the process that sets its signal state in this step, no signal is sent to
it and none is taken, nor a handler started. -/
structure Quiet (k : Kernel) (a : Act) (j : Slot) : Prop where
  inUse : (k.pool j).state ≠ .unused
  unsent : ∀ s, a.sends k = some s → s.target ≠ j
  calls : a.runner k = some j → QuietCall k j
  untaken : a.runner k = some j → ∀ signo rest, (k.pool j).context = .doSignal (signo :: rest) →
    (k.pool j).pending signo = false ∨ (¬ Unblockable signo ∧ (k.pool j).masked signo = true)
  unstarted : a.runner k = some j → ∀ signo rest info,
    (k.pool j).context ≠ .copyInfo signo rest [] info

theorem signal_wakeFrom (p : Proc) (s : ProcState) : (p.wakeFrom s).1.signal = p.signal := by
  rw [Proc.wakeFrom]
  split <;> rfl

theorem Upd.signal_eq (h : Upd k a j p q) (hunsent : ∀ s, a.sends k = some s → s.target ≠ j)
    (hcalls : a.runner k = some j → QuietCall k j) : q.signal = p.signal := by
  cases h with
  | receive hsends => exact absurd rfl (hunsent _ hsends)
  | receiveKill => exact signal_wakeFrom _ _
  | sigmask hrun hp hctx hid =>
    subst hp
    rcases hid with hid | hid
    · exact absurd rfl (hcalls hrun hctx _ hid).2.1
    · exact absurd rfl (hcalls hrun hctx _ hid).2.2.1
  | sigaction hrun hp hmm hctx hid =>
    subst hp
    exact absurd rfl (hcalls hrun hctx _ hid).1
  | exec hrun hp hctx hid hcall hret =>
    subst hp
    exact absurd ((hcalls hrun hctx _ hid).2.2.2 rfl _ _ hcall) hret.not_gt
  | _ => rfl

/-- The look at a signal that is not pending, or is blocked, does nothing. -/
theorem takeSignal_untaken
    (h : p.pending signo = false ∨ (¬ Unblockable signo ∧ p.masked signo = true)) :
    takeSignal signo p = .next p := by
  rcases h with hpending | ⟨hblock, hmask⟩
  · exact (TakenCase.notPending hpending).taken_eq
  · exact (TakenCase.masked hblock hmask).taken_eq

/-- **A quiet step leaves the signal state alone.** -/
theorem step_quiet (hsched : Sched k) (h : step k a = some k') (hquiet : Quiet k a j) :
    (k'.pool j).signal = (k.pool j).signal := by
  refine slot_step (I := fun p => p.signal = (k.pool j).signal) hsched h
    (fun p q hp hupd => (hupd.signal_eq hquiet.unsent hquiet.calls).trans hp)
    (fun _ _ hunused => absurd hunused hquiet.inUse) (fun hp _ => hp)
    (fun hrun p q hp _ _ hown => ?_) rfl
  cases hown with
  | turn hk hctx hturn =>
    subst hk
    rw [takeSignal_untaken (hquiet.untaken hrun _ _ hctx)] at hturn
    cases hturn
    rfl
  | take hk hctx hturn =>
    subst hk
    rw [takeSignal_untaken (hquiet.untaken hrun _ _ hctx)] at hturn
    cases hturn
  | install hk hctx =>
    subst hk
    exact absurd hctx (hquiet.unstarted hrun _ _ _)
  | _ => exact hp

/-! ## Forks and execs -/

/-- In this step the process in slot `j` forks the one in slot `child`. -/
structure Forks (k : Kernel) (a : Act) (j child : Slot) (k' : Kernel) : Prop where
  runner : a.runner k = some j
  context : (k.pool j).context = .syscall
  call : Sysno.ofId (toInt (k.pool j).trapframe.a7) = some .fork
  unused : (k.pool child).state = .unused
  used : (k'.pool child).state ≠ .unused

/-- In this step the process in slot `j` replaces its program. -/
structure Execs (k : Kernel) (a : Act) (j : Slot) : Prop where
  runner : a.runner k = some j
  context : (k.pool j).context = .syscall
  call : Sysno.ofId (toInt (k.pool j).trapframe.a7) = some .exec
  succeeds : ∃ ret k₁,
    sysExec j (k.pool j).trapframe.a0 (k.pool j).trapframe.a1 k = some (ret, k₁) ∧ 0 ≤ ret

/-- A call of `fork` sends no signal. -/
theorem Forks.sends (hfork : Forks k a j child k') : a.sends k = none := by
  have hrun := hfork.runner
  cases a with
  | exec c =>
    simp only [Act.sends, hrun, Option.bind_some, sigkillCall, hfork.context, hfork.call,
      Option.bind_none]
  | _ => rfl

/-- A fork leaves the signal state of the parent alone. -/
theorem Forks.quiet (hsched : Sched k) (hfork : Forks k a j child k') : Quiet k a j := by
  refine ⟨by simp [hsched.runner hfork.runner], ?_, fun _ _ n hn => ?_,
    fun _ signo rest hctx => ?_,
    fun _ signo rest info hctx => ?_⟩
  · rw [hfork.sends]
    exact nofun
  · cases hfork.call.symm.trans hn
    exact ⟨nofun, nofun, nofun, nofun⟩
  · exact nomatch hfork.context.symm.trans hctx
  · exact nomatch hfork.context.symm.trans hctx

/-- **The signal state of a new child.** -/
theorem step_fork (hsched : Sched k) (h : step k a = some k') (hfork : Forks k a j child k') :
    (k'.pool child).signal = siginitFork (k.pool j).signal (siginit (k.pool child).signal) := by
  have hne : a.runner k ≠ some child := by
    intro hrun
    exact nomatch (hsched.runner hrun).symm.trans hfork.unused
  refine slot_step (I := fun p => p.state ≠ .unused →
      p.signal = siginitFork (k.pool j).signal (siginit (k.pool child).signal)) hsched h
    (fun p q hp hupd hq => ?_) (fun pid q hunused hborn hq => ?_)
    (fun _ hrunnable => nomatch hfork.unused.symm.trans hrunnable)
    (fun hrun => absurd hrun hne) (fun hused => absurd hfork.unused hused) hfork.used
  · have hunsent : ∀ s, a.sends k = some s → s.target ≠ child := by
      rw [hfork.sends]
      exact nofun
    rw [hupd.signal_eq hunsent fun hrun => absurd hrun hne]
    exact hp (hupd.kept.of_live hq).1
  · cases hborn with
    | fork hrun =>
      cases hfork.runner.symm.trans hrun
      rfl
    | failed => exact absurd rfl hq
    | init ha =>
      subst ha
      exact nomatch hfork.runner

/-- **The signal state after `exec`.** -/
theorem step_execs (h : step k a = some k') (hexec : Execs k a j) :
    (k'.pool j).signal = siginitExec (k.pool j).signal := by
  obtain ⟨c, rfl, hcpu⟩ := exec_of_runner h hexec.runner (by simp [hexec.context])
  obtain ⟨r, k₁, hswitch, hend⟩ := syscall_returns hcpu hexec.context h (by
    simp only [syscallSwitch, hexec.call]
    exact .bind fun r => .pure ⟨_, rfl⟩)
  obtain ⟨ret, k₂, hcall, hret⟩ := hexec.succeeds
  simp only [syscallSwitch, hexec.call, bind_eq_some, pure_eq_some] at hswitch
  obtain ⟨ret', _, hcall', -, rfl⟩ := hswitch
  cases hcall.symm.trans hcall'
  obtain ⟨tf, context, hproc, -⟩ := hend j
  rw [hproc]
  obtain ⟨vm, ⟨hneg, -⟩ | ⟨args, img, eEntry, -, -, -, rfl⟩⟩ := sysExec_cases hcall
  · exact absurd hneg hret.not_gt
  · dsimp only
    rw [Kernel.setProc_pool_self]
    rfl

/-! ## Chains of forks and execs -/

/-- The process in slot `j` of `k'` comes from the one in slot `i` of `k` by forks, following the
child, and execs; in the steps between them nothing touches its signal state. -/
inductive Lineage (k : Kernel) (i : Slot) : Kernel → Slot → (forked execd : Bool) → Prop
  | start : Lineage k i k i false false
  | quiet {k₁ k₂ : Kernel} {a : Act} {j : Slot} {forked execd : Bool}
      (h : Lineage k i k₁ j forked execd) (hstep : step k₁ a = some k₂) (hquiet : Quiet k₁ a j) :
      Lineage k i k₂ j forked execd
  | fork {k₁ k₂ : Kernel} {a : Act} {j child : Slot} {forked execd : Bool}
      (h : Lineage k i k₁ j forked execd) (hstep : step k₁ a = some k₂)
      (hfork : Forks k₁ a j child k₂) :
      Lineage k i k₂ child true execd
  | exec {k₁ k₂ : Kernel} {a : Act} {j : Slot} {forked execd : Bool}
      (h : Lineage k i k₁ j forked execd) (hstep : step k₁ a = some k₂) (hexec : Execs k₁ a j) :
      Lineage k i k₂ j forked true

theorem Lineage.inherits {forked execd : Bool} (hk : Reachable k)
    (h : Lineage k i k' j forked execd) :
    Reachable k' ∧ Inherits (k.pool i).signal (k'.pool j).signal forked execd := by
  induction h with
  | start => exact ⟨hk, .refl _⟩
  | quiet h hstep hquiet ih =>
    rw [step_quiet ih.1.sched hstep hquiet]
    exact ⟨ih.1.step hstep, ih.2⟩
  | fork h hstep hfork ih =>
    rw [step_fork ih.1.sched hstep hfork]
    exact ⟨ih.1.step hstep, ih.2.fork _⟩
  | exec h hstep hexec ih =>
    rw [step_execs hstep hexec]
    exact ⟨ih.1.step hstep, ih.2.exec⟩

/-! ## Ignored signals -/

/-- `q` is neither killed nor stopped, if `p` is not. -/
def Undisturbed (p q : Proc) : Prop :=
  q.killed = p.killed ∧ (q.needStop = p.needStop ∨ q.needStop = 0)

/-- The signal neither kills nor interrupts the process: not when it is sent, and it stays in the
call it is in, and not when `do_signal` comes to it. -/
structure Spares (k : Kernel) (j : Slot) (signo : Signo) : Prop where
  sent : ∀ a k' s, step k a = some k' → a.sends k = some s → s.target = j → s.signo = signo →
    Undisturbed (k.pool j) (k'.pool j) ∧
      (a.runner k ≠ some j → (k'.pool j).context = (k.pool j).context)
  taken : ∀ a k' rest, step k a = some k' → a.runner k = some j →
    (k.pool j).context = .doSignal (signo :: rest) →
    (k'.pool j).context = .doSignal rest ∧ Undisturbed (k.pool j) (k'.pool j) ∧
      (k'.pool j).trapframe = (k.pool j).trapframe ∧ k'.vm = k.vm

theorem undisturbed_receive {code sender : Int} (hkill : signo ≠ SIGKILL) :
    Undisturbed p (p.receive signo code sender).1 := by
  refine ⟨?_, ?_⟩
  · rw [receive_killed, if_neg hkill]
  · rw [receive_needStop]
    split
    · exact .inr rfl
    · exact .inl rfl

theorem takeSignal_ignored (hfixed : ¬ Fixed signo)
    (hign : (p.signal.sa signo).saSigaction = SIG_IGN) :
    ∃ q, takeSignal signo p = .next q ∧ Undisturbed p q ∧ q.trapframe = p.trapframe := by
  have hcase := takeSignal_cases signo p
  generalize takeSignal signo p = taken at hcase ⊢
  cases hcase with
  | notPending => exact ⟨p, rfl, ⟨rfl, .inl rfl⟩, rfl⟩
  | masked => exact ⟨p, rfl, ⟨rfl, .inl rfl⟩, rfl⟩
  | kill _ hsig => exact absurd (.inl hsig) hfixed
  | stop _ hsig => exact absurd (.inr hsig) hfixed
  | cont => exact ⟨_, rfl, ⟨rfl, .inr rfl⟩, rfl⟩
  | ignored => exact ⟨_, rfl, ⟨rfl, .inl rfl⟩, rfl⟩
  | default _ hdfl => exact nomatch hign.symm.trans hdfl
  | handler _ hsa => exact absurd hign hsa.1

theorem spares_of_ignored (hfixed : ¬ Fixed signo)
    (hign : ((k.pool j).signal.sa signo).saSigaction = SIG_IGN) : Spares k j signo := by
  refine ⟨fun a k' s h hsends htarget hsigno => ?_, fun a k' rest h hrun hctx => ?_⟩
  · subst htarget
    obtain ⟨i, tf, context, hrunner, hproc, hcontext⟩ := step_sent h hsends
    rw [hproc]
    refine ⟨undisturbed_receive fun hkill => hfixed (.inl (hsigno.symm.trans hkill)),
      fun hrun => ?_⟩
    refine hcontext fun htarget => hrun ?_
    rw [hrunner, htarget]
  · obtain ⟨q, hturn, hsame, htf⟩ := takeSignal_ignored hfixed hign
    obtain ⟨hproc, hvm⟩ := step_takeSignal h hrun hctx hturn
    rw [hproc]
    exact ⟨rfl, hsame, htf, hvm⟩

/-- **Signal state is inherited across forks and execs**: what a process has from another one it
comes from, which the forks leave alone.  A signal other than `SIGKILL` and `SIGSTOP` that the
first ignores neither kills nor interrupts the second. -/
theorem signals_inherited (k k' : Kernel) (i j : Slot) (forked execd : Bool) (hk : Reachable k)
    (hline : Lineage k i k' j forked execd) :
    Inherits (k.pool i).signal (k'.pool j).signal forked execd ∧
    (∀ a child k'', step k' a = some k'' → Forks k' a j child k'' →
      (k''.pool j).signal = (k'.pool j).signal) ∧
    ∀ signo, signo ≠ 0 → signo ≠ SIGKILL → signo ≠ SIGSTOP →
      ((k.pool i).signal.sa signo).saSigaction = SIG_IGN → Spares k' j signo := by
  obtain ⟨hk', hinherits⟩ := hline.inherits hk
  refine ⟨hinherits, fun a child k'' hstep hfork => ?_, fun signo hne hkill hstop hign => ?_⟩
  · exact step_quiet hk'.sched hstep (hfork.quiet hk'.sched)
  · refine spares_of_ignored ?_ ((hinherits.ignored signo hne).2 hign)
    rintro (h | h)
    · exact hkill h
    · exact hstop h

/-- `init` gives a signal an action with a mask, which it has put at `0xfffef100`. -/
def maskedAction (signo : Signo) : List Act :=
  .loadInitApp :: enterUser 0 ++ [.userStore 0 0xfffef108 1] ++
    ecall 0 (callRegs .sigaction (ofInt signo.val) 0xfffef100 0) ++ leave 0

/-- It gives `SIGUSR0` a mask and calls `fork`. -/
def aboutToFork : List Act :=
  maskedAction SIGUSR0 ++ [.trap 0 .ecall (callRegs .fork 0 0 0), .exec 0]

theorem signals_inherited_fork :
    ∃ k k', Reachable k ∧ step k (.exec 0) = some k' ∧
      ((k.pool 0).signal.sa SIGUSR0).saMask ≠ sigemptyset ∧
      (Inherits (k.pool 0).signal (k'.pool 1).signal true false ∧
        (∀ a child k'', step k' a = some k'' → Forks k' a 1 child k'' →
          (k''.pool 1).signal = (k'.pool 1).signal) ∧
        ∀ signo, signo ≠ 0 → signo ≠ SIGKILL → signo ≠ SIGSTOP →
          ((k.pool 0).signal.sa signo).saSigaction = SIG_IGN → Spares k' 1 signo) := by
  have hobs : ((run step (boot initMachine) aboutToFork).bind fun k =>
    (step k (.exec 0)).map fun k' =>
      decide (Act.runner k (.exec 0) = some 0 ∧ (k.pool 0).context = .syscall ∧
        Sysno.ofId (toInt (k.pool 0).trapframe.a7) = some .fork ∧ (k.pool 1).state = .unused ∧
        (k'.pool 1).state ≠ .unused ∧ ((k.pool 0).signal.sa SIGUSR0).saMask ≠ sigemptyset)) =
      some true := by
    decide +kernel
  simp only [Option.bind_eq_some_iff, Option.map_eq_some_iff, decide_eq_true_eq] at hobs
  obtain ⟨k, hrun, k', hstep, hrunner, hctx, hid, hunused, hused, hmask⟩ := hobs
  have hk : Reachable k := ⟨initMachine, aboutToFork, hrun⟩
  have hfork : Forks k (.exec 0) 0 1 k' := ⟨hrunner, hctx, hid, hunused, hused⟩
  exact ⟨k, k', hk, hstep, hmask,
    signals_inherited k k' 0 1 true false hk (.fork .start hstep hfork)⟩

/-- `init` overwrites the new action for `SIGKILL` with the old one, and sends `SIGKILL` to
itself. -/
def killIgnoring : List Act :=
  maskedAction SIGKILL ++ ecall 0 (callRegs .sigaction (ofInt SIGKILL.val) 0xfffef100
    0xfffef0f8) ++
    leave 0 ++ [.trap 0 .ecall (callRegs .sigkill 1 (ofInt SIGKILL.val) 0), .exec 0]

/-- `SIGKILL` kills a process whose disposition for it is to ignore it. -/
theorem ignored_sigkill_kills :
    ¬ ∀ (k k' : Kernel) (i j : Slot) (forked execd : Bool), Reachable k →
      Lineage k i k' j forked execd → ∀ signo, signo ≠ 0 →
        ((k.pool i).signal.sa signo).saSigaction = SIG_IGN → Spares k' j signo := by
  intro hall
  have hobs : ((run step (boot initMachine) killIgnoring).bind fun k =>
    (step k (.exec 0)).map fun k' =>
      decide (((k.pool 0).signal.sa SIGKILL).saSigaction = SIG_IGN ∧
        Act.sends k (.exec 0) = some ⟨0, SIGKILL, 0, 1⟩ ∧ (k.pool 0).killed = 0 ∧
        (k'.pool 0).killed ≠ 0)) = some true := by
    decide +kernel
  simp only [Option.bind_eq_some_iff, Option.map_eq_some_iff, decide_eq_true_eq] at hobs
  obtain ⟨k, hrun, k', hstep, hign, hsends, halive, hkilled⟩ := hobs
  have hspares :=
    hall k k 0 0 false false ⟨initMachine, killIgnoring, hrun⟩ .start SIGKILL (by decide) hign
  exact hkilled ((hspares.sent _ _ _ hstep hsends rfl rfl).1.1.trans halive)

end SignalOS
