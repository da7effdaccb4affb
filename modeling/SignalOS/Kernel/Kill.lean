import SignalOS.Kernel.Target

/-!
# What becomes of a killed process

* `CheckAhead` — the places of a kernel thread from which it does not get back to
  user mode without a killed check.
* `sigkill_takes_effect` — **a process that gets `SIGKILL` at one of them does not
  return to user mode**.
* `sigkill_exitCode` — **it exits with the code of `SIGKILL`**, unless another
  reason is written over it before the check.
-/

namespace SignalOS

open Partial Runs

variable {k k' : Kernel} {a : Act} {c : CpuId} {i j : Slot} {p q : Proc}

/-! ## The way to `exit` -/

/-- A killed check of `usertrap`, or `exit`, is ahead of the thread. -/
def CheckAhead : Context → Prop
  | .none | .firstSchedRet | .usertrapret | .clearNeedStop | .stop | .stopped | .jump | .user =>
    False
  | _ => True

/-- In `usertrapret` or in user mode. -/
def LeavesKernel : Context → Prop
  | .usertrapret | .clearNeedStop | .stop | .stopped | .jump | .user => True
  | _ => False

theorem CheckAhead.not_leavesKernel {context : Context} (h : CheckAhead context) :
    ¬ LeavesKernel context := by
  cases context <;> first | exact id | exact fun _ => h

/-- A killed process stays on its way. -/
theorem Moves.checkAhead {context context' : Context} (h : Moves p context context')
    (hkilled : p.killed ≠ 0) (hahead : CheckAhead context) : CheckAhead context' := by
  cases h with
  | leave hzero => exact absurd hzero hkilled
  | firstRun => exact hahead
  | needStop => exact hahead
  | noStop => exact hahead
  | stopping => exact hahead
  | continued => exact hahead
  | jump => exact hahead
  | _ => exact trivial

theorem Parks.checkAhead {context context' : Context} {s : ProcState}
    (h : Parks context s context')
    (hahead : CheckAhead context) : CheckAhead context' := by
  cases h with
  | stop => exact hahead
  | _ => exact trivial

/-- The process is gone, or it is marked killed and has a check ahead. -/
def Doomed (p : Proc) : Prop :=
  (p.state = .unused ∧ p.context = .none) ∨ (p.killed ≠ 0 ∧ CheckAhead p.context)

theorem Doomed.not_leavesKernel (h : Doomed p) : ¬ LeavesKernel p.context := by
  rcases h with ⟨-, hnone⟩ | ⟨-, hahead⟩
  · rw [hnone]
    exact id
  · exact hahead.not_leavesKernel

theorem Upd.doomed (h : Upd k a j p q) (hp : Doomed p) : Doomed q := by
  rcases h.cases with hsame | ⟨-, rfl⟩
  · rcases hp with ⟨hunused, hnone⟩ | ⟨hkilled, hahead⟩
    · exact .inl ⟨(h.stays hunused (by decide)).1, hsame.context.trans hnone⟩
    · refine .inr ⟨?_, hsame.context ▸ hahead⟩
      rcases hsame.killed with heq | heq
      · rwa [heq]
      · rw [heq]
        decide
  · exact .inl ⟨rfl, rfl⟩

theorem faultReason_ne_zero {cause : Cause} {reason : Int}
    (h : faultReason k i cause = some reason) :
    reason ≠ 0 := by
  cases cause with
  | pageFault addr store =>
    obtain ⟨r, -, hr⟩ := Option.bind_eq_some_iff.1 h
    split at hr
    · cases hr
    · cases hr
      decide
  | exception =>
    cases h
    decide
  | _ => cases h

theorem Own.doomed (h : Own k i p q) (hstate : p.state = .running) (hp : Doomed p) : Doomed q := by
  rcases hp with ⟨hunused, -⟩ | ⟨hkilled, hahead⟩
  · rw [hstate] at hunused
    cases hunused
  refine .inr ?_
  cases h with
  | goto hmoves => exact ⟨hkilled, hmoves.checkAhead hkilled hahead⟩
  | park hparks => exact ⟨hkilled, hparks.checkAhead hahead⟩
  | die => exact ⟨hkilled, trivial⟩
  | trap hctx =>
    rw [hctx] at hahead
    exact hahead.elim
  | fault _ _ hreason => exact ⟨faultReason_ne_zero hreason, trivial⟩
  | turn _ _ hturn =>
    refine ⟨?_, trivial⟩
    rcases takeSignal_killed hturn with heq | heq | ⟨-, heq⟩
    · exact fun hzero => hkilled (heq.symm.trans hzero)
    · exact fun hzero => absurd (heq.symm.trans hzero) (by decide)
    · intro hzero
      have hzero := heq.symm.trans hzero
      omega
  | take => exact ⟨hkilled, trivial⟩
  | install => exact ⟨hkilled, trivial⟩

theorem step_doomed (k : Kernel) (a : Act) (k' : Kernel) (hsched : Sched k) (hused : InUse j k a)
    (h : step k a = some k') (hj : Doomed (k.pool j)) : Doomed (k'.pool j) :=
  slot_step hsched h (fun _ _ hp hupd => hupd.doomed hp) (fun _ _ hunused => absurd hunused hused)
    (fun hp hrunnable => .inr (hp.resolve_left fun h => absurd (hrunnable.symm.trans h.1)
      (by decide)))
    (fun _ _ _ hp _ hstate hown => hown.doomed hstate hp) hj

/-- A process that is not running is not the one whose call it gets a signal from. -/
theorem step_sends_off {s : Sent} (hk : Reachable k) (h : step k a = some k')
    (hsends : a.sends k = some s) (hsigno : s.signo = SIGKILL)
    (hoff : (k.pool s.target).state ≠ .running) :
    k'.pool s.target = ((k.pool s.target).receive SIGKILL s.code s.sender).1 := by
  obtain ⟨i, tf, hrunner, -, hpool⟩ :=
    step_sends h hsends (by rw [hsigno]; decide) (by rw [hsigno]; decide)
  have hne : s.target ≠ i := by
    rintro rfl
    obtain ⟨c, i, rfl, hcpu, -⟩ :=
      sends_cases hsends (by rw [hsigno]; decide) (by rw [hsigno]; decide)
    cases (Within.runner_exec hcpu).symm.trans hrunner
    exact hoff (hk.sched.running c _ hcpu)
  rw [hpool, if_neg hne, hsigno]

/-- **A killed process does not return to user mode.**  A process that is off the CPU and gets
`SIGKILL` neither sleeps nor is stopped after it, and as long as it keeps its slot, whatever else
is sent to it, it is never past the killed checks again, provided that it is neither a child that
has yet to run nor in `sched()` inside `usertrapret`. -/
theorem sigkill_takes_effect (k k' : Kernel) (a : Act) (s : Sent) (hk : Reachable k)
    (hsends : a.sends k = some s) (hsigno : s.signo = SIGKILL)
    (hstate : (k.pool s.target).state = .sleeping ∨ (k.pool s.target).state = .runnable ∨
      (k.pool s.target).state = .stopped)
    (hplace : (k.pool s.target).context ≠ .firstSchedRet ∧ (k.pool s.target).context ≠ .stopped)
    (hstep : step k a = some k') :
    ((k'.pool s.target).state ≠ .sleeping ∧ (k'.pool s.target).state ≠ .stopped) ∧
      ∀ (as : List Act) (k'' : Kernel), run step k' as = some k'' →
        Along step (InUse s.target) k' as → ¬ LeavesKernel (k''.pool s.target).context := by
  have hstands := hk.stands s.target
  have hoff : (k.pool s.target).state ≠ .running := by
    rcases hstate with h | h | h
    all_goals
      rw [h]
      decide
  have hpool := step_sends_off hk hstep hsends hsigno hoff
  have hstate' := (receive_state (k.pool s.target) SIGKILL s.code s.sender).1
  simp only [← hpool, wakes_sigkill] at hstate'
  have hnot : (k.pool s.target).state ≠ .stopped := by
    intro hstopped
    rw [hstopped] at hstands
    generalize hctx : (k.pool s.target).context = context at hstands hplace
    cases hstands
    exact hplace.2 rfl
  refine ⟨?_, fun as k'' hrun hused => ?_⟩
  · rw [hstate']
    split
    · exact ⟨nofun, nofun⟩
    · rename_i hawake
      exact ⟨hawake, hnot⟩
  · have hahead : CheckAhead (k.pool s.target).context := by
      generalize (k.pool s.target).context = context at hstands hplace
      rcases hstate with h | h | h
      · rw [h] at hstands
        cases hstands
        exact trivial
      · rw [h] at hstands
        cases hstands with
        | newborn => exact absurd rfl hplace.1
        | continued => exact absurd rfl hplace.2
        | _ => exact trivial
      · exact absurd h hnot
    have hdoomed : Doomed (k'.pool s.target) := by
      rw [hpool]
      refine .inr ⟨?_, ?_⟩
      · rw [receive_killed, if_pos rfl]
        decide
      · rwa [(signalled_receive _ _ _ _).context_eq]
    exact (slot_run step_doomed (hk.step hstep).sched hrun hused hdoomed).not_leavesKernel

theorem sigkill_takes_effect_yielded :
    ∃ k', run step (boot initMachine) (forkChild ++ yieldChild ++ sendChild SIGKILL ++ [.exec 0]) =
      some k' ∧ ((k'.pool 1).state ≠ .sleeping ∧ (k'.pool 1).state ≠ .stopped) ∧
        ∀ (as : List Act) (k'' : Kernel), run step k' as = some k'' →
          Along step (InUse 1) k' as → ¬ LeavesKernel (k''.pool 1).context := by
  have hobs : (run step (boot initMachine) (forkChild ++ yieldChild ++ sendChild SIGKILL)).map
      (fun k => (Act.sends k (.exec 0), (k.pool 1).state, (k.pool 1).context)) =
        some (some ⟨1, SIGKILL, 0, 1⟩, .runnable, .yielded) := by decide +kernel
  have hsome : (run step (boot initMachine)
      (forkChild ++ yieldChild ++ sendChild SIGKILL ++ [.exec 0])).isSome =
        true := by decide +kernel
  obtain ⟨k', hrun'⟩ := Option.isSome_iff_exists.1 hsome
  obtain ⟨k, hrun, hstep⟩ := run_concat_eq_some.1 hrun'
  rw [hrun, Option.map_some, Option.some_inj, Prod.mk.injEq, Prod.mk.injEq] at hobs
  obtain ⟨hsends, hstate, hctx⟩ := hobs
  have hplace : (k.pool 1).context ≠ .firstSchedRet ∧ (k.pool 1).context ≠ .stopped := by
    rw [hctx]
    decide
  exact ⟨k', hrun', sigkill_takes_effect k k' (.exec 0) ⟨1, SIGKILL, 0, 1⟩ ⟨initMachine, _,
    hrun⟩ hsends
    rfl (.inr (.inl hstate)) hplace hstep⟩

/-- A child that is killed before it runs enters user mode. -/
theorem killed_child_runs :
    ¬ ∀ (k k' : Kernel) (a : Act) (s : Sent), Reachable k → a.sends k = some s →
      s.signo = SIGKILL →
      ((k.pool s.target).state = .sleeping ∨ (k.pool s.target).state = .runnable ∨
        (k.pool s.target).state = .stopped) → step k a = some k' →
      ((k'.pool s.target).state ≠ .sleeping ∧ (k'.pool s.target).state ≠ .stopped) ∧
        ∀ (as : List Act) (k'' : Kernel), run step k' as = some k'' →
          Along step (InUse s.target) k' as → ¬ LeavesKernel (k''.pool s.target).context := by
  intro hall
  have hobs : (run step (boot initMachine) (forkChild ++ sendChild SIGKILL)).map
      (fun k => (Act.sends k (.exec 0), (k.pool 1).state)) =
        some (some ⟨1, SIGKILL, 0, 1⟩, .runnable) := by decide +kernel
  obtain ⟨k, hrun, hobs⟩ := Option.map_eq_some_iff.1 hobs
  rw [Prod.mk.injEq] at hobs
  have huser : (run step (boot initMachine) (forkChild ++ sendChild SIGKILL ++ [.exec 0])).map
      (fun k' => (decide (Along step (InUse 1) k' (enterUser 1)),
        (run step k' (enterUser 1)).map fun k'' => (k''.pool 1).context)) =
          some (true, some .user) := by decide +kernel
  obtain ⟨k', hrun', huser⟩ := Option.map_eq_some_iff.1 huser
  rw [Prod.mk.injEq, decide_eq_true_eq] at huser
  obtain ⟨k'', hrun'', hctx⟩ := Option.map_eq_some_iff.1 huser.2
  obtain ⟨k1, hrun1, hstep⟩ := run_concat_eq_some.1 hrun'
  cases hrun.symm.trans hrun1
  have hnot := (hall k k' (.exec 0) ⟨1, SIGKILL, 0, 1⟩ ⟨initMachine, _, hrun⟩ hobs.1 rfl
    (.inr (.inl hobs.2)) hstep).2 (enterUser 1) k'' hrun'' huser.1
  exact hnot (hctx ▸ trivial)

/-! ## The exit code -/

/-- The step of the process in slot `i` marks it killed for a reason of its own. -/
def marksKilled (k : Kernel) (i : Slot) : Bool :=
  match (k.pool i).context with
  | .usertrap cause => (faultReason k i cause).isSome
  | .doSignal (signo :: _) => decide (TakesDefault (k.pool i) signo)
  | _ => false

/-- The process keeps its slot, and its reason to be killed is not written over in this step. -/
def KeepsReason (i : Slot) (k : Kernel) (a : Act) : Prop :=
  InUse i k a ∧ (a.runner k = some i → marksKilled k i = false)

instance (i : Slot) (k : Kernel) (a : Act) : Decidable (KeepsReason i k a) :=
  inferInstanceAs (Decidable (_ ∧ _))

/-- The process is gone, or it is marked killed by `SIGKILL`. -/
def Marked (p : Proc) : Prop :=
  (p.state = .unused ∧ p.context = .none) ∨ p.killed = -10 - SIGKILL.val

theorem Upd.marked (h : Upd k a j p q) (hp : Marked p) : Marked q := by
  rcases h.cases with hsame | ⟨-, rfl⟩
  · rcases hp with ⟨hunused, hnone⟩ | hkilled
    · exact .inl ⟨(h.stays hunused (by decide)).1, hsame.context.trans hnone⟩
    · exact .inr (hsame.killed.elim (·.trans hkilled) id)
  · exact .inl ⟨rfl, rfl⟩

theorem Own.marked (h : Own k i p q) (hstate : p.state = .running)
    (hkeeps : p = k.pool i → marksKilled k i = false) (hp : Marked p) : Marked q := by
  have hkilled : p.killed = -10 - SIGKILL.val :=
    hp.resolve_left fun hgone => absurd (hstate.symm.trans hgone.1) (by decide)
  refine .inr ?_
  cases h with
  | fault hpk hctx hreason =>
    subst hpk
    have hno := hkeeps rfl
    simp only [marksKilled, hctx, hreason, Option.isSome_some] at hno
    cases hno
  | turn hpk hctx hturn =>
    subst hpk
    rcases takeSignal_killed hturn with heq | heq | ⟨hdefault, -⟩
    · exact heq.trans hkilled
    · exact heq
    · have hno := hkeeps rfl
      simp only [marksKilled, hctx, hdefault, decide_true] at hno
      cases hno
  | _ => exact hkilled

theorem step_marked (k : Kernel) (a : Act) (k' : Kernel) (hsched : Sched k)
    (hok : KeepsReason j k a)
    (h : step k a = some k') (hj : Marked (k.pool j)) : Marked (k'.pool j) :=
  slot_step hsched h (fun _ _ hp hupd => hupd.marked hp) (fun _ _ hunused => absurd hunused hok.1)
    (fun hp hrunnable => .inr (hp.resolve_left fun h => absurd (hrunnable.symm.trans h.1)
      (by decide)))
    (fun hrunner _ _ hp _ hstate hown => hown.marked hstate (fun _ => hok.2 hrunner) hp) hj

/-- A process on its way through `exit(code)`, or out of it, by its context and exit code. -/
inductive Exiting (code : Int) : Context → Int → Prop
  | exit (e : Int) : Exiting code (.exit code) e
  | reparent (e : Int) (parentProc : Option Slot) : Exiting code (.reparent code parentProc) e
  | wakeInit (e : Int) : Exiting code (.wakeInit code) e
  | notifyParent (e ppid : Int) : Exiting code (.notifyParent code ppid) e
  | wakeParent (e : Int) : Exiting code (.wakeParent code) e
  | finish (e : Int) : Exiting code (.finish code) e
  | dead : Exiting code .dead code
  | freed (e : Int) : Exiting code .none e

theorem Moves.exiting {code e : Int} {context context' : Context} (h : Moves p context context')
    (hexit : Exiting code context e) : Exiting code context' e := by
  cases hexit with
  | exit =>
    cases h
    exact .reparent _ _
  | reparent =>
    cases h with
    | notify => exact .notifyParent _ _
    | childless => exact .wakeParent _
    | reparented => exact .wakeInit _
  | wakeInit =>
    cases h
    exact .wakeParent _
  | notifyParent =>
    cases h
    exact .wakeParent _
  | wakeParent =>
    cases h
    exact .finish _
  | finish => cases h
  | dead => cases h
  | freed => cases h

theorem Own.exiting {code : Int} (h : Own k i p q) (hp : Exiting code p.context p.exitCode) :
    Exiting code q.context q.exitCode := by
  generalize hctx : p.context = context at hp
  cases h with
  | goto hmoves => exact (hctx ▸ hmoves).exiting hp
  | die hfinish =>
    rw [← hctx, hfinish] at hp
    cases hp
    exact .dead
  | park hparks =>
    rw [hctx] at hparks
    cases hp <;> cases hparks
  | trap huser =>
    rw [← hctx, huser] at hp
    cases hp
  | fault _ htrap =>
    rw [← hctx, htrap] at hp
    cases hp
  | turn _ hscan =>
    rw [← hctx, hscan] at hp
    cases hp
  | take _ hscan =>
    rw [← hctx, hscan] at hp
    cases hp
  | install _ hstart =>
    rw [← hctx, hstart] at hp
    cases hp

theorem Upd.exiting {code : Int} (h : Upd k a j p q) (hp : Exiting code p.context p.exitCode) :
    Exiting code q.context q.exitCode := by
  rcases h.cases with hsame | ⟨-, rfl⟩
  · rwa [hsame.context, hsame.exitCode]
  · exact .freed _

theorem step_exiting {code : Int} (k : Kernel) (a : Act) (k' : Kernel) (hsched : Sched k)
    (hused : InUse j k a) (h : step k a = some k')
    (hj : Exiting code (k.pool j).context (k.pool j).exitCode) :
    Exiting code (k'.pool j).context (k'.pool j).exitCode :=
  slot_step (I := fun p => Exiting code p.context p.exitCode) hsched h
    (fun _ _ hp hupd => hupd.exiting hp) (fun _ _ hunused => absurd hunused hused)
    (fun hp _ => hp) (fun _ _ _ hp _ _ hown => hown.exiting hp) hj

/-- The killed checks of `usertrap`: before a system call, after the trap and after `do_signal`. -/
def KilledCheck (context : Context) : Prop :=
  context = .usertrap .ecall ∨ (∃ timer, context = .stillAlive timer) ∨
    context = .stillAliveAfterSignal

/-- A killed process that comes to a killed check calls `exit` with its reason. -/
theorem killedCheck_exits (hcpu : k.cpus c = .running i) (hcheck : KilledCheck (k.pool i).context)
    (hkilled : (k.pool i).killed ≠ 0) (h : step k (.exec c) = some k') :
    (k'.pool i).context = .exit (k.pool i).killed := by
  obtain ⟨next, k1, hthread, hcarry⟩ := exec_of_step hcpu h
  have hexit : next = .goto (.exit (k.pool i).killed) ∧ k1 = k := by
    rcases hcheck with hctx | ⟨timer, hctx⟩ | hctx
    all_goals
      simp only [hctx, thread, usertrap, getProc_bind, if_pos hkilled, pure_eq_some] at hthread
      exact hthread
  obtain ⟨rfl, rfl⟩ := hexit
  rw [carryOn, modifyProc_eq_some] at hcarry
  rw [hcarry, Kernel.setProc_pool_self]

/-- **A process killed by `SIGKILL` reports it**: from the send on, if no trap and no default
action of the process writes another reason before it comes to a killed check, its exit code is
that of `SIGKILL`. -/
theorem sigkill_exitCode (k k₁ k₂ k₃ k₄ : Kernel) (a : Act) (s : Sent) (c : CpuId)
    (as bs : List Act) (hk : Reachable k) (hsends : a.sends k = some s)
    (hsigno : s.signo = SIGKILL)
    (hstep : step k a = some k₁) (hrun : run step k₁ as = some k₂)
    (hkeeps : Along step (KeepsReason s.target) k₁ as) (hcpu : k₂.cpus c = .running s.target)
    (hcheck : KilledCheck (k₂.pool s.target).context) (hexec : step k₂ (.exec c) = some k₃)
    (hrest : run step k₃ bs = some k₄) (hused : Along step (InUse s.target) k₃ bs)
    (hzombie : (k₄.pool s.target).state = .zombie) :
    (k₄.pool s.target).exitCode = -10 - SIGKILL.val := by
  have hk₁ : Reachable k₁ := hk.step hstep
  have hk₂ : Reachable k₂ := hk₁.run hrun
  have hk₄ : Reachable k₄ := (hk₂.step hexec).run hrest
  have hmarked : Marked (k₁.pool s.target) := by
    obtain ⟨i, tf, -, -, hpool⟩ := step_sends hstep hsends (by rw [hsigno]; decide)
      (by rw [hsigno]; decide)
    have hkilled := receive_killed (k.pool s.target) SIGKILL s.code s.sender
    rw [hpool, hsigno]
    split
    · exact .inr hkilled
    · exact .inr hkilled
  have hkilled : (k₂.pool s.target).killed = -10 - SIGKILL.val := by
    refine (slot_run step_marked hk₁.sched hrun hkeeps hmarked).resolve_left ?_
    rintro ⟨-, hnone⟩
    rw [hnone] at hcheck
    rcases hcheck with h | ⟨_, h⟩ | h <;> cases h
  have hexit := killedCheck_exits hcpu hcheck (by rw [hkilled]; decide) hexec
  have hexiting : Exiting (-10 - SIGKILL.val) (k₃.pool s.target).context
      (k₃.pool s.target).exitCode := by
    rw [hexit, hkilled]
    exact .exit _
  have hend :=
    slot_run (I := fun p => Exiting (-10 - SIGKILL.val) p.context p.exitCode) step_exiting
      (hk₂.step hexec).sched hrest hused hexiting
  have hstands := hk₄.stands s.target
  rw [hzombie] at hstands
  generalize (k₄.pool s.target).context = context at hstands hend
  cases hstands
  generalize (k₄.pool s.target).exitCode = e at hend
  cases hend
  rfl

theorem sigkill_exitCode_yielded :
    ∃ k, Reachable k ∧ (k.pool 1).state = .zombie ∧ (k.pool 1).exitCode = -10 - SIGKILL.val := by
  have hobs : ((run step (boot initMachine) (forkChild ++ yieldChild ++ sendChild SIGKILL)).bind
    fun k =>
      (step k (.exec 0)).bind fun k₁ => (run step k₁ resumeChild).bind fun k₂ =>
      (step k₂ (.exec 1)).bind fun k₃ => (run step k₃ (List.replicate 4 (.exec 1))).map fun k₄ =>
        decide (Act.sends k (.exec 0) = some ⟨1, SIGKILL, 0, 1⟩ ∧
          Along step (KeepsReason 1) k₁ resumeChild ∧ k₂.cpus 1 = .running 1 ∧
          (k₂.pool 1).context = .stillAliveAfterSignal ∧
          Along step (InUse 1) k₃ (List.replicate 4 (.exec 1)) ∧ (k₄.pool 1).state = .zombie)) =
      some true := by decide +kernel
  simp only [Option.bind_eq_some_iff, Option.map_eq_some_iff, decide_eq_true_eq] at hobs
  obtain ⟨k, hrun, k₁, hstep, k₂, hrun₂, k₃, hstep₃, k₄, hrun₄, hsends, hkeeps, hcpu, hctx, hused,
    hzombie⟩ := hobs
  have hk : Reachable k := ⟨initMachine, _, hrun⟩
  exact ⟨k₄, (((hk.step hstep).run hrun₂).step hstep₃).run hrun₄, hzombie,
    sigkill_exitCode k k₁ k₂ k₃ k₄ (.exec 0) ⟨1, SIGKILL, 0, 1⟩ 1 resumeChild
      (List.replicate 4 (.exec 1)) hk hsends rfl hstep hrun₂ hkeeps hcpu (.inr (.inr hctx)) hstep₃
      hrun₄ hused hzombie⟩

/-- A child that also gets `SIGUSR0` before it runs again exits with the code of that. -/
theorem sigkill_reports_sigusr0 :
    ¬ ∀ (k k₁ k₂ k₃ k₄ : Kernel) (a : Act) (s : Sent) (c : CpuId) (as bs : List Act), Reachable k →
      a.sends k = some s → s.signo = SIGKILL → step k a = some k₁ → run step k₁ as = some k₂ →
      Along step (InUse s.target) k₁ as → k₂.cpus c = .running s.target →
      KilledCheck (k₂.pool s.target).context → step k₂ (.exec c) = some k₃ →
      run step k₃ bs = some k₄ → Along step (InUse s.target) k₃ bs →
      (k₄.pool s.target).state = .zombie → (k₄.pool s.target).exitCode = -10 - SIGKILL.val := by
  intro hall
  have hobs : ((run step (boot initMachine) (forkChild ++ yieldChild ++ sendChild SIGKILL)).bind
    fun k =>
      (step k (.exec 0)).bind fun k₁ =>
      (run step k₁ (leave 0 ++ sendChild SIGUSR0 ++ .exec 0 :: resumeChild)).bind fun k₂ =>
      (step k₂ (.exec 1)).bind fun k₃ => (run step k₃ (List.replicate 4 (.exec 1))).map fun k₄ =>
        decide (Act.sends k (.exec 0) = some ⟨1, SIGKILL, 0, 1⟩ ∧
          Along step (InUse 1) k₁ (leave 0 ++ sendChild SIGUSR0 ++ .exec 0 :: resumeChild) ∧
          k₂.cpus 1 = .running 1 ∧ (k₂.pool 1).context = .stillAliveAfterSignal ∧
          Along step (InUse 1) k₃ (List.replicate 4 (.exec 1)) ∧ (k₄.pool 1).state = .zombie ∧
          (k₄.pool 1).exitCode = -11)) =
      some true := by decide +kernel
  simp only [Option.bind_eq_some_iff, Option.map_eq_some_iff, decide_eq_true_eq] at hobs
  obtain ⟨k, hrun, k₁, hstep, k₂, hrun₂, k₃, hstep₃, k₄, hrun₄, hsends, hused, hcpu, hctx, hused',
    hzombie, hcode⟩ := hobs
  have hcode' :=
    hall k k₁ k₂ k₃ k₄ (.exec 0) ⟨1, SIGKILL, 0, 1⟩ 1 _ _ ⟨initMachine, _, hrun⟩ hsends
      rfl hstep hrun₂ hused hcpu (.inr (.inr hctx)) hstep₃ hrun₄ hused' hzombie
  exact absurd (hcode.symm.trans hcode') (by decide)

end SignalOS
