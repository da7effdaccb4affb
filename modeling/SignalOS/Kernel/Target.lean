import SignalOS.Kernel.Inversion

/-!
# The target of a signal

* `Stands` — where the kernel thread of a process stands, by the state of the
  process; `Reachable.stands` — **in every reachable state**.
* `step_sends` — **a call of `sys_sigkill` reaches its target**: what it leaves in the
  slot it found.
-/

namespace SignalOS

open Partial

variable {k k' : Kernel} {a : Act} {c : CpuId} {i j : Slot} {p q : Proc}

/-! ## Where a process stands -/

/-- A process in this state has its kernel thread here. -/
inductive Stands : ProcState → Context → Prop
  | unused : Stands .unused .none
  | newborn : Stands .runnable .firstSchedRet
  | yielded : Stands .runnable .yielded
  | sysYield : Stands .runnable .sysYield
  | sleeping (b : Blocking) : Stands .sleeping (.asleep b)
  | woken (b : Blocking) : Stands .runnable (.asleep b)
  | stopped : Stands .stopped .stopped
  | continued : Stands .runnable .stopped
  | zombie : Stands .zombie .dead
  | running {context : Context} (h : context ≠ .none) : Stands .running context

namespace Stands

variable {s : ProcState} {context context' : Context}

theorem wake (h : Stands s context) (hs : s = .sleeping ∨ s = .stopped) :
    Stands .runnable context := by
  cases h with
  | sleeping b => exact .woken b
  | stopped => exact .continued
  | _ => simp at hs

theorem ne_none (h : Stands s context) (hs : s ≠ .unused) : context ≠ .none := by
  cases h with
  | unused => exact absurd rfl hs
  | running h => exact h
  | _ => nofun

/-- A process with the context of `swtch` goes on from there. -/
theorem switch (h : Stands .runnable context) : Stands .running context :=
  .running (h.ne_none nofun)

end Stands

theorem Moves.ne_none {context context' : Context} (h : Moves p context context') :
    context' ≠ .none := by
  cases h <;> nofun

theorem Parks.stands {context context' : Context} {s : ProcState} (h : Parks context s context') :
    Stands s context' := by
  cases h with
  | sleep b => exact .sleeping b
  | yield => exact .yielded
  | sysYield => exact .sysYield
  | stop => exact .stopped

theorem Upd.stands (h : Upd k a j p q) (hp : Stands p.state p.context) :
    Stands q.state q.context := by
  rcases h.cases with hsame | ⟨-, rfl⟩
  · rw [hsame.context]
    rcases hsame.state with heq | ⟨hasleep, hwoken⟩
    · rwa [heq]
    · rw [hwoken]
      exact hp.wake hasleep
  · exact .unused

theorem Born.stands {pid : Int} (h : Born k a pid p q) : Stands q.state q.context := by
  cases h with
  | fork => exact .newborn
  | failed => exact .unused
  | init => exact .newborn

theorem Own.stands (h : Own k i p q) (hp : p.state = .running) : Stands q.state q.context := by
  cases h with
  | goto hmoves => exact hp ▸ .running hmoves.ne_none
  | park hparks => exact hparks.stands
  | die => exact .zombie
  | trap => exact hp ▸ .running nofun
  | fault => exact hp ▸ .running nofun
  | turn _ _ hturn => exact takeSignal_state hp hturn ▸ hp ▸ .running nofun
  | take => exact hp ▸ .running nofun
  | install => exact hp ▸ .running nofun

theorem step_stands (hsched : Sched k) (h : step k a = some k')
    (hj : Stands (k.pool j).state (k.pool j).context) :
    Stands (k'.pool j).state (k'.pool j).context :=
  slot_step (I := fun p => Stands p.state p.context) hsched h (fun _ _ hp hupd => hupd.stands hp)
    (fun _ _ _ hborn => hborn.stands) (fun hp hstate => Stands.switch (hstate ▸ hp))
    (fun _ _ _ _ _ hstate hown => hown.stands hstate) hj

/-- **In every reachable state** each process stands where its state says. -/
theorem Reachable.stands (h : Reachable k) (j : Slot) :
    Stands (k.pool j).state (k.pool j).context := by
  obtain ⟨m, h⟩ := h
  have hboot : Sched (boot m) ∧ ∀ j, Stands ((boot m).pool j).state ((boot m).pool j).context :=
    ⟨Sched.boot m, fun _ => .unused⟩
  have hinv := h.induct (I := fun k => Sched k ∧ ∀ j, Stands (k.pool j).state (k.pool j).context)
    hboot fun _ _ _ hI hstep => ⟨hI.1.step hstep, fun j => step_stands hI.1 hstep (hI.2 j)⟩
  exact hinv.2 j

theorem Reachable.step (h : Reachable k) (hstep : SignalOS.step k a = some k') : Reachable k' := by
  obtain ⟨m, h⟩ := h
  exact ⟨m, h.snoc hstep⟩

theorem Reachable.run {as : List Act} (h : Reachable k)
    (hrun : Runs.run SignalOS.step k as = some k') :
    Reachable k' := by
  obtain ⟨m, h⟩ := h
  exact ⟨m, h.append hrun⟩

/-- **How a process comes to a place**: it was there, or its own step leads there. -/
theorem step_context {context : Context} (hsched : Sched k) (h : step k a = some k')
    (hctx : (k'.pool j).context = context) (hnone : context ≠ .none)
    (hfirst : context ≠ .firstSchedRet) :
    (k.pool j).context = context ∨ a.runner k = some j ∧ ∃ p q, Own k j p q ∧
      p.context = (k.pool j).context ∧ p.state = .running ∧ q.context = context := by
  refine slot_step (I := fun p => p.context = context → (k.pool j).context = context ∨
    a.runner k = some j ∧ ∃ p q, Own k j p q ∧ p.context = (k.pool j).context ∧
      p.state = .running ∧ q.context = context) hsched h (fun p q hp hupd hq => ?_)
    (fun pid q _ hborn hq => ?_) (fun hp _ => hp)
    (fun hrun p q _ hrunsAt hstate hown hq => .inr ⟨hrun, p, q, hown, hrunsAt.2.symm, hstate, hq⟩)
    .inl hctx
  · rcases hupd.cases with hsame | ⟨-, rfl⟩
    · exact hp (hsame.context.symm.trans hq)
    · exact absurd hq.symm hnone
  · cases hborn with
    | fork => exact absurd hq.symm hfirst
    | failed => exact absurd hq.symm hnone
    | init => exact absurd hq.symm hfirst

/-! ## The process that takes a step -/

theorem running_of_exec (h : Act.runner k (.exec c) = some i) : k.cpus c = .running i := by
  rw [Act.runner] at h
  split at h
  · rename_i hcpu
    exact Option.some.inj h ▸ hcpu
  · cases h

theorem cpu_of_runner (h : a.runner k = some i) : ∃ c, k.cpus c = .running i := by
  cases a with
  | exec c | trap c | userStore c =>
    refine ⟨c, ?_⟩
    simp only [Act.runner] at h
    split at h
    · rename_i hrun
      exact Option.some.inj h ▸ hrun
    · cases h
  | _ => cases h

theorem Sched.runner (hsched : Sched k) (h : a.runner k = some i) :
    (k.pool i).state = .running := by
  obtain ⟨c, hcpu⟩ := cpu_of_runner h
  exact hsched.running c i hcpu

/-- In the kernel, only the kernel thread takes steps. -/
theorem exec_of_runner (h : step k a = some k') (hrun : a.runner k = some i)
    (hctx : (k.pool i).context ≠ .user) : ∃ c, a = .exec c ∧ k.cpus c = .running i := by
  obtain ⟨c', hcpu'⟩ := cpu_of_runner hrun
  have hact := act_of_step h
  cases a with
  | exec c =>
    exact ⟨c, rfl, running_of_exec hrun⟩
  | trap c cause tf =>
    simp only [act, bind_eq_some (x := runningOn _), runningOn_eq_some] at hact
    obtain ⟨i', k₁, ⟨hcpu, rfl⟩, hact⟩ := hact
    simp only [Act.runner, hcpu, Option.some.injEq] at hrun
    rw [getProc_bind, if_neg (hrun ▸ hctx)] at hact
    cases hact
  | userStore c va b =>
    simp only [act, bind_eq_some (x := runningOn _), runningOn_eq_some,
      bind_eq_some (x := getMm _), getMm_eq_some] at hact
    obtain ⟨i', k₁, ⟨hcpu, rfl⟩, mm, _, ⟨-, rfl⟩, hact⟩ := hact
    simp only [Act.runner, hcpu, Option.some.injEq] at hrun
    rw [getProc_bind, if_neg (hrun ▸ hctx)] at hact
    cases hact
  | _ => cases hrun

/-! ## What a call of `sys_sigkill` does -/

/-- The acts that send a signal other than `SIGUSR2` and `SIGCHLD` are system calls. -/
theorem sends_cases {s : Sent} (h : a.sends k = some s) (husr2 : s.signo ≠ SIGUSR2)
    (hchld : s.signo ≠ SIGCHLD) :
    ∃ c i, a = .exec c ∧ k.cpus c = .running i ∧ (k.pool i).context = .syscall ∧
      Sysno.ofId (toInt (k.pool i).trapframe.a7) = some .sigkill ∧
      sentBy k i (toInt (k.pool i).trapframe.a0, toInt (k.pool i).trapframe.a1,
        toInt (k.pool i).trapframe.a2) = some s := by
  cases a with
  | exec c =>
    obtain ⟨i, hrun, h⟩ := Option.bind_eq_some_iff.1 h
    obtain ⟨call, hcall, hsent⟩ := Option.bind_eq_some_iff.1 h
    have hcpu := running_of_exec hrun
    have hsigno : toSigno call.2.1 = some s.signo := by
      obtain ⟨signo, hsigno, h⟩ := Option.bind_eq_some_iff.1 hsent
      obtain ⟨j, -, rfl⟩ := Option.map_eq_some_iff.1 h
      exact hsigno
    -- the calls the kernel makes itself are for two signals
    have hother (signo : Signo) (hzero : signo ≠ 0) (hne : s.signo ≠ signo) :
        call.2.1 ≠ signo.val := by
      intro heq
      rw [heq, toSigno_val hzero] at hsigno
      exact hne (Option.some.inj hsigno).symm
    refine ⟨c, i, rfl, hcpu, ?_⟩
    simp only [sigkillCall] at hcall
    split at hcall
    · cases hcall
      exact absurd rfl (hother SIGCHLD (by decide) hchld)
    · rename_i hctx
      split at hcall
      · rename_i hid
        cases hcall
        exact ⟨hctx, hid, hsent⟩
      · split at hcall
        · cases hcall
          exact absurd rfl (hother SIGUSR2 (by decide) husr2)
        · cases hcall
      · obtain ⟨victim, -, hcall⟩ := Option.bind_eq_some_iff.1 hcall
        obtain ⟨parent, -, rfl⟩ := Option.map_eq_some_iff.1 hcall
        exact absurd rfl (hother SIGCHLD (by decide) hchld)
      · cases hcall
    · cases hcall
  | _ => cases h

/-- The target is the process with the pid, and the sender the caller. -/
theorem sentBy_spec {s : Sent} {call : Int × Int × Int} (h : sentBy k i call = some s) :
    findByPid k.pool call.1 = some s.target ∧ toSigno call.2.1 = some s.signo ∧ s.code = call.2.2 ∧
      s.sender = (k.pool i).pid := by
  obtain ⟨signo, hsigno, hsent⟩ := Option.bind_eq_some_iff.1 h
  obtain ⟨j, hfind, rfl⟩ := Option.map_eq_some_iff.1 hsent
  exact ⟨hfind, hsigno, rfl, rfl⟩

/-- `sys_sigkill` stores the process that received the signal. -/
theorem sysSigkill_sent {s : Sent} {pid n code r : Int}
    (hsent : sentBy k i (pid, n, code) = some s)
    (h : sysSigkill i pid n code k = some (r, k')) :
    Frame (k.setProc s.target ((k.pool s.target).receive s.signo s.code s.sender).1) k' := by
  obtain ⟨signo, hsigno, hsent⟩ := Option.bind_eq_some_iff.1 hsent
  obtain ⟨j, hfind, rfl⟩ := Option.map_eq_some_iff.1 hsent
  dsimp only at hsigno hfind
  simp only [sysSigkill, hsigno, get_bind, hfind, bind_eq_some, pure_eq_some] at h
  obtain ⟨_, _, hstore, -, rfl⟩ := h
  exact Within.storeProc_frame Within.receive_flag hstore

/-- A step that goes elsewhere changes nothing but the place of its own process. -/
theorem carryOn_goto {context : Context} {u : Unit}
    (h : carryOn c i (.goto context) k = some (u, k'))
    (j : Slot) : ∃ context, k'.pool j = { k.pool j with context := context } ∧
      (j ≠ i → context = (k.pool j).context) := by
  rw [carryOn, modifyProc_eq_some] at h
  rw [h]
  by_cases hj : j = i
  · rw [hj, Kernel.setProc_pool_self]
    exact ⟨context, rfl, fun hne => absurd rfl hne⟩
  · rw [Kernel.setProc_pool_of_ne hj]
    exact ⟨(k.pool j).context, rfl, fun _ => rfl⟩

/-- The end of a system call sets the return value and goes on. -/
theorem syscall_returns (hcpu : k.cpus c = .running i) (hctx : (k.pool i).context = .syscall)
    (h : step k (.exec c) = some k')
    (hreturns : Returns (fun o => ∃ r, o = .ret r) (syscallSwitch i (k.pool i).trapframe)) :
    ∃ r k₁, syscallSwitch i (k.pool i).trapframe k = some (.ret r, k₁) ∧
      ∀ j, ∃ tf context, k'.pool j = { k₁.pool j with trapframe := tf, context := context } ∧
        (j ≠ i → context = (k₁.pool j).context) := by
  obtain ⟨next, k₂, hthread, hcarry⟩ := exec_of_step hcpu h
  simp only [hctx, thread, syscall, getProc_bind, bind_eq_some] at hthread
  obtain ⟨o, k₃, ⟨o₁, k₄, hswitch, hret⟩, hnext⟩ := hthread
  obtain ⟨r, rfl⟩ := hreturns _ _ _ hswitch
  simp only [bind_eq_some, setReturn, modifyProc_eq_some, pure_eq_some] at hret
  obtain ⟨_, _, rfl, rfl, rfl⟩ := hret
  obtain ⟨rfl, rfl⟩ := pure_eq_some.1 hnext
  refine ⟨r, k₄, hswitch, fun j => ?_⟩
  obtain ⟨context, hpool, hcontext⟩ := carryOn_goto hcarry j
  rw [hpool]
  by_cases hj : j = i
  · rw [hj, Kernel.setProc_pool_self]
    exact ⟨_, context, rfl, fun hne => absurd rfl hne⟩
  · rw [Kernel.setProc_pool_of_ne hj] at hcontext ⊢
    exact ⟨(k₄.pool j).trapframe, context, rfl, hcontext⟩

/-- **A call of `sys_sigkill` reaches its target**: the target has received the signal, and when
it is the caller itself, it has left the call. -/
theorem step_sends {s : Sent} (h : step k a = some k') (hsends : a.sends k = some s)
    (husr2 : s.signo ≠ SIGUSR2) (hchld : s.signo ≠ SIGCHLD) :
    ∃ i tf, a.runner k = some i ∧ (k.pool i).context = .syscall ∧
      k'.pool s.target =
        if s.target = i then
          { ((k.pool s.target).receive s.signo s.code s.sender).1 with
            trapframe := tf
            context := .stillAlive false }
        else ((k.pool s.target).receive s.signo s.code s.sender).1 := by
  obtain ⟨c, i, rfl, hcpu, hctx, hid, hsent⟩ := sends_cases hsends husr2 hchld
  obtain ⟨next, k2, hthread, hcarry⟩ := exec_of_step hcpu h
  simp only [hctx, thread, syscall, getProc_bind, syscallSwitch, hid, bind_eq_some, pure_eq_some]
    at hthread
  obtain ⟨o, k3, ⟨o1, k4, ⟨r, k5, hcall, rfl, rfl⟩, hret⟩, hnext⟩ := hthread
  have hframe := sysSigkill_sent hsent hcall
  simp only [bind_eq_some, setReturn, modifyProc_eq_some, pure_eq_some] at hret
  obtain ⟨_, _, rfl, rfl, rfl⟩ := hret
  obtain ⟨rfl, rfl⟩ := pure_eq_some.1 hnext
  rw [carryOn, modifyProc_eq_some] at hcarry
  refine ⟨i, { (k4.pool i).trapframe with a0 := ofInt r }, Within.runner_exec hcpu, hctx, ?_⟩
  rw [hcarry]
  split
  · rename_i heq
    subst heq
    simp only [Kernel.setProc_pool_self, hframe.pool_self]
  · rename_i hne
    rw [Kernel.setProc_pool_of_ne hne, Kernel.setProc_pool_of_ne hne, hframe.pool_self]

/-- The call of `sys_sigkill` inside `kill` is made after the victim was marked. -/
theorem kill_sent {s : Sent} {pid r : Int} {victim parent : Slot}
    (hvictim : findByPid k.pool pid = some victim)
    (hparent : (k.pool victim).parent = some parent)
    (hsent : sentBy k i ((k.pool parent).pid, SIGCHLD.val, -1) = some s)
    (h : kill i pid k = some (r, k')) :
    k'.pool s.target = ((k.pool s.target).receive s.signo s.code s.sender).1 := by
  rcases Within.kill_cases h with ⟨hnone, -⟩ | ⟨victim', k₁, hvictim', hstore, hend⟩
  · exact nomatch hnone.symm.trans hvictim
  cases hvictim.symm.trans hvictim'
  rcases hend with ⟨hnone, -⟩ | ⟨parent', j, r', hparent', hj, hlt, hsend⟩
  · exact nomatch hnone.symm.trans hparent
  cases hparent.symm.trans hparent'
  have hframe := Within.storeProc_frame Within.receiveKill_flag hstore
  have hne : s.target ≠ victim := by
    rw [Option.some.inj ((sentBy_spec hsent).1.symm.trans hj)]
    exact hlt.ne
  have hsame : k₁.pool s.target = k.pool s.target := by
    rw [hframe.pool, Kernel.setProc_pool_of_ne hne]
  have hsent₁ : sentBy k₁ i ((k.pool parent).pid, SIGCHLD.val, -1) = some s :=
    (Within.sentBy_congr (Within.pid_of_receiveKill hframe) _).trans hsent
  rw [(sysSigkill_sent hsent₁ hsend).pool_self, hsame]

/-- The test call that sends `SIGUSR2`. -/
theorem ktest_sigusr2 {tf : Trapframe} (ha0 : tf.a0 = 5) :
    ktestSyscall i tf = do return ofInt (← sysSigkill i (toInt tf.a1) SIGUSR2.val 0) := by
  rw [ktestSyscall, ha0, if_neg (by decide), if_neg (by decide), if_neg (by decide), if_pos rfl]

/-- The place of a process that received a signal, when the sender goes on. -/
theorem received_context {s : Sent} {k₁ : Kernel} {tf : Trapframe} {context : Context}
    (hreceived : k₁.pool s.target = ((k.pool s.target).receive s.signo s.code s.sender).1)
    (h : k'.pool s.target = { k₁.pool s.target with trapframe := tf, context := context } ∧
      (s.target ≠ i → context = (k₁.pool s.target).context)) :
    k'.pool s.target = { ((k.pool s.target).receive s.signo s.code s.sender).1 with
        trapframe := tf
        context := context } ∧
      (s.target ≠ i → context = (k.pool s.target).context) := by
  rw [hreceived] at h
  exact ⟨h.1, fun hne => (h.2 hne).trans (SameProc.receive _ _ _ _).context⟩

/-- **Every signal sent reaches its target**, also those the kernel sends itself. -/
theorem step_sent {s : Sent} (h : step k a = some k') (hsends : a.sends k = some s) :
    ∃ i tf context, a.runner k = some i ∧
      k'.pool s.target = { ((k.pool s.target).receive s.signo s.code s.sender).1 with
        trapframe := tf
        context := context } ∧
      (s.target ≠ i → context = (k.pool s.target).context) := by
  cases a with
  | exec c =>
    obtain ⟨i, hrun, hcalls⟩ := Option.bind_eq_some_iff.1 hsends
    obtain ⟨call, hcall, hsent⟩ := Option.bind_eq_some_iff.1 hcalls
    have hcpu := running_of_exec hrun
    simp only [sigkillCall] at hcall
    split at hcall
    · rename_i code ppid hctx
      cases hcall
      obtain ⟨next, k₁, hthread, hcarry⟩ := exec_of_step hcpu h
      simp only [hctx, thread, bind_eq_some, discard_eq_some, pure_eq_some] at hthread
      obtain ⟨_, _, ⟨r, hsend⟩, rfl, rfl⟩ := hthread
      obtain ⟨context, hend⟩ := carryOn_goto hcarry s.target
      exact ⟨i, (k₁.pool s.target).trapframe, context, hrun,
        received_context (sysSigkill_sent hsent hsend).pool_self hend⟩
    · rename_i hctx
      split at hcall
      · rename_i hid
        cases hcall
        obtain ⟨r, k₁, hswitch, hend⟩ := syscall_returns hcpu hctx h (by
          simp only [syscallSwitch, hid]
          exact .bind fun r => .pure ⟨_, rfl⟩)
        simp only [syscallSwitch, hid, bind_eq_some, pure_eq_some] at hswitch
        obtain ⟨r', _, hsend, -, rfl⟩ := hswitch
        obtain ⟨tf, context, hend⟩ := hend s.target
        exact ⟨i, tf, context, hrun, received_context (sysSigkill_sent hsent hsend).pool_self hend⟩
      · rename_i hid
        split at hcall
        · rename_i ha0
          cases hcall
          obtain ⟨r, k₁, hswitch, hend⟩ := syscall_returns hcpu hctx h (by
            simp only [syscallSwitch, hid]
            exact .bind fun r => .pure ⟨_, rfl⟩)
          simp only [syscallSwitch, hid, ktest_sigusr2 ha0, bind_eq_some, pure_eq_some] at hswitch
          obtain ⟨r', _, ⟨r'', _, hsend, -, rfl⟩, -, rfl⟩ := hswitch
          obtain ⟨tf, context, hend⟩ := hend s.target
          exact ⟨i, tf, context, hrun,
            received_context (sysSigkill_sent hsent hsend).pool_self hend⟩
        · cases hcall
      · rename_i hid
        obtain ⟨victim, hvictim, hcall⟩ := Option.bind_eq_some_iff.1 hcall
        obtain ⟨parent, hparent, rfl⟩ := Option.map_eq_some_iff.1 hcall
        obtain ⟨r, k₁, hswitch, hend⟩ := syscall_returns hcpu hctx h (by
          simp only [syscallSwitch, hid]
          exact .bind fun r => .pure ⟨_, rfl⟩)
        simp only [syscallSwitch, hid, bind_eq_some, pure_eq_some] at hswitch
        obtain ⟨r', _, hkill, -, rfl⟩ := hswitch
        obtain ⟨tf, context, hend⟩ := hend s.target
        exact ⟨i, tf, context, hrun, received_context (kill_sent hvictim hparent hsent hkill) hend⟩
      · cases hcall
    · cases hcall
  | _ => cases hsends

end SignalOS
