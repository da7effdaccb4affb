import SignalOS.Kernel.Tree

/-!
# What an exit announces

`exit` reads the parent before it takes `wait_lock`, gives its children away, and
sends `SIGCHLD` only when it had none.

* `sendsOf` — the signals a process sends in a run; `announcement` — the one its
  parent is to receive.
* `KeepsParent` — the steps that leave an exiting process its parent, and find it
  without children.
* `exit_announced` — **in every run of such steps an exit is announced to the parent**,
  and to nobody else.
-/

namespace SignalOS

open Partial Runs

variable {k k' : Kernel} {a : Act} {c : CpuId} {i x : Slot} {code : Int} {sent : List Sent}

/-! ## What is sent -/

/-- The signals that the process in slot `x` sends in a run. -/
def sendsOf (x : Slot) (k : Kernel) (as : List Act) : List Sent :=
  (trace step k as).filterMap fun t => if t.2.runner t.1 = some x then t.2.sends t.1 else none

/-- The `SIGCHLD` for the parent of the process in slot `x`; `init` gets none. -/
def announcement (k : Kernel) (x : Slot) (code : Int) : List Sent :=
  match (k.pool x).parent with
  | none => []
  | some y => if k.initProc = some y then [] else [⟨y, SIGCHLD, code, (k.pool x).pid⟩]

/-- At the start of `exit`. -/
def Context.atExit : Context → Bool
  | .exit _ => true
  | _ => false

/-- In `exit`, with the parent read. -/
def Context.atReparent : Context → Bool
  | .reparent .. => true
  | _ => false

/-- When `x` looks for its children it has none, or its parent is `init`; and once it has read its
parent, the parent does not give its children away. -/
def KeepsParent (x : Slot) (k : Kernel) (a : Act) : Prop :=
  (a.runner k = some x → (k.pool x).context.atReparent →
    haveKids k.pool x = false ∨ (k.pool x).parent = k.initProc) ∧
  (¬ (k.pool x).context.atExit →
    ∀ y ∈ a.runner k, (k.pool y).context.atReparent → (k.pool x).parent ≠ some y)

instance (x : Slot) (k : Kernel) (a : Act) : Decidable (KeepsParent x k a) :=
  @instDecidableAnd _ _ _ (@instDecidableForall _ _ _ (Option.decidableForallMem _))

/-- What the exit of the process in slot `x` has sent when it stands at a place. -/
inductive Announced (k : Kernel) (x : Slot) (code : Int) : Context → List Sent → Prop
  | exit : Announced k x code (.exit code) []
  | reparent : Announced k x code (.reparent code (k.pool x).parent) []
  | wakeInit (hinit : (k.pool x).parent = k.initProc) : Announced k x code (.wakeInit code) []
  | notifyParent {y : Slot} (hparent : (k.pool x).parent = some y) (hinit : k.initProc ≠ some y) :
      Announced k x code (.notifyParent code (k.pool y).pid) []
  | wakeParent : Announced k x code (.wakeParent code) (announcement k x code)
  | finish : Announced k x code (.finish code) (announcement k x code)

theorem Announced.cases (h : Announced k x code (k.pool x).context sent) :
    ((k.pool x).context = .exit code ∧ sent = []) ∨ GivesAway (k.pool x).context := by
  generalize (k.pool x).context = context at h
  cases h with
  | exit => exact .inl ⟨rfl, rfl⟩
  | _ => exact .inr trivial

theorem Announced.wakeParent_of (h : sent = announcement k x code) :
    Announced k x code (.wakeParent code) sent := h ▸ .wakeParent

theorem Announced.running (hk : Reachable k) (h : Announced k x code (k.pool x).context sent) :
    (k.pool x).state = .running := by
  have hstands := hk.stands x
  generalize (k.pool x).context = context, (k.pool x).state = s at h hstands
  cases h <;> cases hstands <;> rfl

/-! ## The steps of an exit -/

/-- A process that has read its parent keeps it, and both keep their pids. -/
theorem step_keepsParent (hk : Reachable k) (h : step k a = some k')
    (hx : (k.pool x).state = .running)
    (hctx : GivesAway (k.pool x).context) (hok : KeepsParent x k a) :
    ∃ y, (k.pool x).parent = some y ∧ CanHold (k.pool y) ∧ (k'.pool x).parent = some y ∧
      (k'.pool x).pid = (k.pool x).pid ∧ k'.initProc = k.initProc ∧
      (k'.pool y).pid = (k.pool y).pid := by
  have hsched := hk.sched
  have hused : (k.pool x).state ≠ .unused := by simp [hx]
  have hinit : k'.initProc = k.initProc := by
    refine step_initProc hsched h ?_
    rintro rfl
    exact hused (hk.tree.empty (step_loadInitApp h).1 x)
  obtain ⟨y, hy, -, hhold⟩ := hk.tree.parent x hused fun heq => (hk.tree.init x heq).2.2 hctx
  refine ⟨y, hy, hhold, ?_⟩
  cases step_fate hsched h x with
  | kept pid state parent => exact ⟨parent.trans hy, pid, hinit, step_pid hsched h hhold⟩
  | given z e parentProc hrun hz hparent =>
    have hstarted : ¬ (k.pool x).context.atExit := by
      generalize (k.pool x).context = context at hctx
      cases context <;> first | exact Bool.false_ne_true | exact absurd hctx id
    exact absurd hparent (hok.2 hstarted z hrun (hz ▸ rfl))
  | freed hreap => exact nomatch hx.symm.trans (reaps_zombie hreap rfl).1
  | forked _ _ _ hunused => exact absurd hunused hused
  | unused hunused => exact absurd hunused hused
  | loaded _ hunused => exact absurd hunused hused

theorem announcement_congr (hparent : (k'.pool x).parent = (k.pool x).parent)
    (hpid : (k'.pool x).pid = (k.pool x).pid) (hinit : k'.initProc = k.initProc) :
    announcement k' x code = announcement k x code := by
  rw [announcement, announcement, hparent, hpid, hinit]

theorem announcement_init (h : (k.pool x).parent = k.initProc) : announcement k x code = [] := by
  rw [announcement]
  split
  · rfl
  · rename_i y hy
    exact if_pos (h.symm.trans hy)

/-- The signal that `exit` sends. -/
theorem sends_notifyParent {y : Slot} (hk : Reachable k) (hpids : k.pids < 2 ^ 31)
    (hcpu : k.cpus c = .running x) (hctx : (k.pool x).context = .notifyParent code (k.pool y).pid)
    (hy : CanHold (k.pool y)) :
    Act.sends k (.exec c) = some ⟨y, SIGCHLD, code, (k.pool x).pid⟩ := by
  have hfind := (hk.pidsOk hpids).find hy.used
  simp only [Within.sends_exec hcpu, sigkillCall, hctx, Option.bind_some, sentBy,
    toSigno_val (show SIGCHLD ≠ 0 by decide), hfind, Option.map_some]

/-- The other steps of `exit` send nothing. -/
theorem sends_none (hcpu : k.cpus c = .running x) (hsyscall : (k.pool x).context ≠ .syscall)
    (hnotify : ∀ code ppid, (k.pool x).context ≠ .notifyParent code ppid) :
    Act.sends k (.exec c) = none := by
  have hcall : sigkillCall k x = none := by
    simp only [sigkillCall]
  rw [Within.sends_exec hcpu, hcall, Option.bind_none]

/-- The step after `sys_sigkill(ppid, SIGCHLD, code)`. -/
theorem step_notifyParent {ppid : Int} (hcpu : k.cpus c = .running i)
    (hctx : (k.pool i).context = .notifyParent code ppid) (h : step k (.exec c) = some k') :
    (k'.pool i).context = .wakeParent code := by
  obtain ⟨next, k₁, hthread, hcarry⟩ := exec_of_step hcpu h
  simp only [hctx, thread, bind_eq_some, pure_eq_some] at hthread
  obtain ⟨_, _, -, rfl, rfl⟩ := hthread
  rw [carryOn, modifyProc_eq_some] at hcarry
  rw [hcarry, Kernel.setProc_pool_self]

/-- What a step adds to the signals the process in slot `x` has sent. -/
def sentIn (x : Slot) (k : Kernel) (a : Act) : List Sent :=
  (if a.runner k = some x then a.sends k else none).toList

namespace Announced

/-- The exit goes on. -/
theorem step_own (hk : Reachable k) (hpids : k.pids < 2 ^ 31) (hcpu : k.cpus c = .running x)
    (hok : KeepsParent x k (.exec c)) (hexits : Act.exits k (.exec c) ≠ some x)
    (h : step k (.exec c) = some k') (hI : Announced k x code (k.pool x).context sent) :
    Announced k' x code (k'.pool x).context (sent ++ (Act.sends k (.exec c)).toList) := by
  have hrun := Within.runner_exec hcpu
  have hkeeps (hgives : GivesAway (k.pool x).context) :=
    step_keepsParent hk h (hk.sched.running c x hcpu) hgives hok
  generalize hctx : (k.pool x).context = context at hI
  cases hI with
  | exit =>
    obtain ⟨-, hk'⟩ := step_exit hcpu hctx h
    have hnext : (k'.pool x).context = .reparent code (k'.pool x).parent := by
      rw [hk', Kernel.setProc_pool_self]
    rw [sends_none hcpu (by simp [hctx]) (by simp [hctx]), hnext]
    exact .reparent
  | reparent =>
    obtain ⟨y, hy, -, hy', -, hinit, hypid⟩ := hkeeps (hctx ▸ trivial)
    obtain ⟨-, hself, -⟩ := step_reparent hcpu hctx h
    rw [sends_none hcpu (by simp [hctx]) (by simp [hctx]), hself, afterReparent.eq_def]
    have hsame : (k'.pool x).parent = (k.pool x).parent := hy'.trans hy.symm
    split
    · rename_i hkids
      refine .wakeInit ?_
      rw [hsame, hinit]
      exact (hok.1 hrun (hctx ▸ rfl)).resolve_left (by simp [hkids])
    · rw [hy]
      dsimp only
      split
      · rename_i hne
        rw [← hypid]
        exact .notifyParent hy' (hinit ▸ hne.symm)
      · rename_i heq
        have hnone : announcement k' x code = [] :=
          announcement_init (hy'.trans ((not_not.1 heq).trans hinit.symm))
        exact .wakeParent_of hnone.symm
  | wakeInit hparent =>
    obtain ⟨y, hy, -, hy', -, hinit, -⟩ := hkeeps (hctx ▸ trivial)
    obtain ⟨hself, -⟩ := step_wakeInit hk.sched hcpu hctx h
    rw [sends_none hcpu (by simp [hctx]) (by simp [hctx]), hself]
    have hnone : announcement k' x code = [] :=
      announcement_init (hy'.trans (hy.symm.trans (hparent.trans hinit.symm)))
    exact .wakeParent_of hnone.symm
  | @notifyParent z hz hne =>
    obtain ⟨y, hy, hhold, hy', hpid, hinit, -⟩ := hkeeps (hctx ▸ trivial)
    cases hz.symm.trans hy
    rw [sends_notifyParent hk hpids hcpu hctx hhold, step_notifyParent hcpu hctx h]
    have hsent : announcement k' x code = [⟨z, SIGCHLD, code, (k.pool x).pid⟩] := by
      rw [announcement, hy', hpid]
      exact if_neg (hinit ▸ hne)
    exact .wakeParent_of hsent.symm
  | wakeParent =>
    obtain ⟨y, hy, -, hy', hpid, hinit, -⟩ := hkeeps (hctx ▸ trivial)
    obtain ⟨-, hself, -⟩ := step_wakeParent hk.sched hcpu hctx h
    rw [sends_none hcpu (by simp [hctx]) (by simp [hctx]), hself,
      ← announcement_congr (hy'.trans hy.symm) hpid hinit]
    simpa using Announced.finish
  | finish =>
    refine absurd ?_ hexits
    simp only [Act.exits, hrun, Option.bind_some, hctx]

/-- **Every step keeps the account.** -/
theorem step (hk : Reachable k) (hpids : k.pids < 2 ^ 31) (hok : KeepsParent x k a)
    (hexits : a.exits k ≠ some x) (h : SignalOS.step k a = some k')
    (hI : Announced k x code (k.pool x).context sent) :
    Announced k' x code (k'.pool x).context (sent ++ sentIn x k a) := by
  have hx := hI.running hk
  by_cases hrun : a.runner k = some x
  · have hkernel : (k.pool x).context ≠ .user := by
      generalize (k.pool x).context = context at hI
      cases hI <;> nofun
    obtain ⟨c, rfl, hcpu⟩ := exec_of_runner h hrun hkernel
    rw [sentIn, if_pos hrun]
    exact hI.step_own hk hpids hcpu hok hexits h
  · have hstays := (step_other hk.sched h hrun hx).2
    rw [sentIn, if_neg hrun, hstays, Option.toList_none, List.append_nil]
    have hkeeps (hgives : GivesAway (k.pool x).context) := step_keepsParent hk h hx hgives hok
    generalize hctx : (k.pool x).context = context at hI
    cases hI with
    | exit => exact .exit
    | reparent =>
      obtain ⟨y, hy, -, hy', -⟩ := hkeeps (hctx ▸ trivial)
      rw [hy, ← hy']
      exact .reparent
    | wakeInit hparent =>
      obtain ⟨y, hy, -, hy', -, hinit, -⟩ := hkeeps (hctx ▸ trivial)
      exact .wakeInit (hy'.trans (hy.symm.trans (hparent.trans hinit.symm)))
    | @notifyParent z hz hne =>
      obtain ⟨y, hy, -, hy', -, hinit, hypid⟩ := hkeeps (hctx ▸ trivial)
      cases hz.symm.trans hy
      rw [← hypid]
      exact .notifyParent hy' (hinit ▸ hne)
    | wakeParent =>
      obtain ⟨y, hy, -, hy', hpid, hinit, -⟩ := hkeeps (hctx ▸ trivial)
      rw [← announcement_congr (hy'.trans hy.symm) hpid hinit]
      exact .wakeParent
    | finish =>
      obtain ⟨y, hy, -, hy', hpid, hinit, -⟩ := hkeeps (hctx ▸ trivial)
      rw [← announcement_congr (hy'.trans hy.symm) hpid hinit]
      exact .finish

end Announced

/-! ## Runs -/

/-- The steps of an exit that has not come to its end. -/
def Unfinished (x : Slot) (k : Kernel) (a : Act) : Prop := a.exits k ≠ some x

instance (x : Slot) (k : Kernel) (a : Act) : Decidable (Unfinished x k a) :=
  inferInstanceAs (Decidable (_ ≠ _))

theorem run_announced {as : List Act} (hk : Reachable k) (hx : (k.pool x).context = .exit code)
    (hrun : run step k as = some k') (hpids : k'.pids < 2 ^ 31)
    (hkeeps : Along step (KeepsParent x) k as)
    (hunfinished : Along step (Unfinished x) k as) :
    Announced k' x code (k'.pool x).context (sendsOf x k as) := by
  have hok : Along step (fun k a => KeepsParent x k a ∧ Unfinished x k a) k as :=
    fun t ht => ⟨hkeeps t ht, hunfinished t ht⟩
  refine run_induct_history
    (I := fun as k' => k'.pids < 2 ^ 31 → Announced k' x code (k'.pool x).context (sendsOf x k as))
    (fun as k₁ a k₂ hrun hI hok hstep hpids => ?_) (fun _ => ?_) hrun hok hpids
  · have hk₁ := hk.run hrun
    have hpids₁ : k₁.pids < 2 ^ 31 := (step_pids hk₁.sched hstep).trans_lt hpids
    rw [sendsOf, filterMap_trace_concat _ hrun]
    exact (hI hpids₁).step hk₁ hpids₁ hok.1 hok.2 hstep
  · exact hx ▸ .exit

/-- A process that receives `SIGCHLD` has it pending, with its siginfo. -/
theorem step_sigchld {s : Sent} (h : step k a = some k') (hsends : a.sends k = some s)
    (hsigno : s.signo = SIGCHLD) :
    (k'.pool s.target).pending SIGCHLD = true ∧
      (k'.pool s.target).signal.siginfos SIGCHLD = ⟨SIGCHLD.val, s.code, s.sender, 0, 0⟩ := by
  obtain ⟨i, tf, context, -, hproc, -⟩ := step_sent h hsends
  have hsignal := congrArg Proc.signal hproc
  rw [hsigno, receive_sigchld] at hsignal
  have hpost : (k'.pool s.target).signal = ((k.pool s.target).post SIGCHLD
      { sigkillInfo SIGCHLD s.sender with siCode := s.code }).signal := by
    rw [hsignal, Proc.wakeFrom]
    split <;> rfl
  constructor
  · rw [Proc.pending, hpost]
    have hpending := pending_post (k.pool s.target) SIGCHLD SIGCHLD
      { sigkillInfo SIGCHLD s.sender with siCode := s.code }
    rw [Proc.pending] at hpending
    simp [hpending]
  · rw [hpost]
    simp [Proc.post, Proc.addPending, Proc.postSiginfo, sigkillInfo]

/-- Every call of `sys_sigkill` that the process in slot `x` makes in the run leaves `SIGCHLD`
pending, with its pid and the code. -/
def SendsPending (x : Slot) (code : Int) (k : Kernel) (as : List Act) (k' : Kernel) : Prop :=
  ∀ t ∈ trace step k as, t.2.runner t.1 = some x → ∀ s, t.2.sends t.1 = some s →
    ∀ k₁, step t.1 t.2 = some k₁ → (k₁.pool s.target).pending SIGCHLD = true ∧
      (k₁.pool s.target).signal.siginfos SIGCHLD = ⟨SIGCHLD.val, code, (k'.pool x).pid, 0, 0⟩

/-- **An exit is announced to the parent**, and to nobody else, in every run in which the parent
does not give its children away between the first step of `exit` and its end, and in which the
process has no children of its own unless the parent is `init`. -/
theorem exit_announced (m : Machine) (as bs : List Act) (k k' : Kernel) (x : Slot) (code : Int)
    (a : Act)
    (hrun : run step (boot m) as = some k) (hx : (k.pool x).context = .exit code)
    (hrun' : run step k bs = some k') (hunfinished : Along step (Unfinished x) k bs)
    (hexits : a.exits k' = some x) (hpids : k'.pids < 2 ^ 31)
    (hkeeps : Along step (KeepsParent x) k bs) :
    ∃ y, (k'.pool x).parent = some y ∧
      sendsOf x k bs =
        (if k'.initProc = some y then [] else [⟨y, SIGCHLD, code, (k'.pool x).pid⟩]) ∧
      SendsPending x code k bs k' := by
  have hk : Reachable k := ⟨m, as, hrun⟩
  have hk' := hk.run hrun'
  have hI := run_announced hk hx hrun' hpids hkeeps hunfinished
  obtain ⟨-, e, hfinish⟩ := exits_context hexits
  have hne : k'.initProc ≠ some x := fun heq => (hk'.tree.init x heq).2.2 (hfinish ▸ trivial)
  have hrunning := hI.running hk'
  obtain ⟨y, hy, -⟩ := hk'.tree.parent x (by simp [hrunning]) hne
  have hsent : sendsOf x k bs =
      if k'.initProc = some y then [] else [⟨y, SIGCHLD, code, (k'.pool x).pid⟩] := by
    rw [hfinish] at hI
    generalize sendsOf x k bs = sent at hI ⊢
    cases hI
    rw [announcement, hy]
  refine ⟨y, hy, hsent, fun t ht hrunner s hsends k₁ hstep => ?_⟩
  have hmem : s ∈ sendsOf x k bs := List.mem_filterMap.2 ⟨t, ht, (if_pos hrunner).trans hsends⟩
  rw [hsent] at hmem
  split at hmem
  · cases hmem
  · cases List.mem_singleton.1 hmem
    exact step_sigchld hstep hsends rfl

/-- A machine with room for four processes. -/
def familyMachine : Machine :=
  { initMachine with
    vm := { initVm with
      freelist := (List.range 64).map fun n => BitVec.ofNat 64 (0x100000 + 0x1000 * n)
      mmAllocator := [1, 2, 3, 4]
      vmaAllocator := [1, 2, 3, 4, 5, 6, 7, 8] } }

/-- `init` forks A, which runs on CPU 1 and forks B, which runs on CPU 2. -/
def forkGrandchild : List Act :=
  forkChild ++ enterUser 1 ++ ecall 1 (callRegs .fork 0 0 0) ++ leave 1 ++ enterUser 2

/-- B exits with code 7, up to the end of `exit`. -/
def exitGrandchild : List Act := ecall 2 (callRegs .exit 7 0 0)

theorem exit_announced_grandchild :
    ∃ k k', run step (boot familyMachine) (forkGrandchild ++ exitGrandchild) = some k ∧
      run step k (List.replicate 4 (.exec 2)) = some k' ∧
      (k'.pool 2).parent = some 1 ∧ k'.initProc ≠ some 1 ∧
      ∃ y, (k'.pool 2).parent = some y ∧
        sendsOf 2 k (List.replicate 4 (.exec 2)) =
          (if k'.initProc = some y then [] else [⟨y, SIGCHLD, 7, (k'.pool 2).pid⟩]) ∧
        SendsPending 2 7 k (List.replicate 4 (.exec 2)) k' := by
  have hobs : ((run step (boot familyMachine) (forkGrandchild ++ exitGrandchild)).bind fun k =>
      (run step k (List.replicate 4 (.exec 2))).map fun k' =>
        decide ((k.pool 2).context = .exit 7 ∧
          Along step (Unfinished 2) k (List.replicate 4 (.exec 2)) ∧
          Act.exits k' (.exec 2) = some 2 ∧ k'.pids < 2 ^ 31 ∧
          Along step (KeepsParent 2) k (List.replicate 4 (.exec 2)) ∧
          (k'.pool 2).parent = some 1 ∧ k'.initProc ≠ some 1)) = some true := by
    decide +kernel
  simp only [Option.bind_eq_some_iff, Option.map_eq_some_iff, decide_eq_true_eq] at hobs
  obtain ⟨k, hrun, k', hrun', hx, hunfinished, hexits, hpids, hkeeps, hparent, hinit⟩ := hobs
  exact ⟨k, k', hrun, hrun', hparent, hinit,
    exit_announced familyMachine (forkGrandchild ++ exitGrandchild) (List.replicate 4 (.exec 2))
      k k' 2 7
      (.exec 2) hrun hx hrun' hunfinished hexits hpids hkeeps⟩

/-- B forks C before it exits. -/
def exitWithChild : List Act :=
  forkGrandchild ++ ecall 2 (callRegs .fork 0 0 0) ++ leave 2 ++ exitGrandchild

/-- The exit of B, which has a child, is not announced to its parent A. -/
theorem exit_not_announced :
    ¬ ∀ (m : Machine) (as bs : List Act) (k k' : Kernel) (x : Slot) (code : Int) (a : Act),
      run step (boot m) as = some k → (k.pool x).context = .exit code → run step k bs = some k' →
      Along step (Unfinished x) k bs → a.exits k' = some x → k'.pids < 2 ^ 31 →
      ∃ y, (k'.pool x).parent = some y ∧
        sendsOf x k bs =
          (if k'.initProc = some y then [] else [⟨y, SIGCHLD, code, (k'.pool x).pid⟩]) ∧
        SendsPending x code k bs k' := by
  intro hall
  have hobs : ((run step (boot familyMachine) exitWithChild).bind fun k =>
      (run step k (List.replicate 4 (.exec 2))).map fun k' =>
        decide ((k.pool 2).context = .exit 7 ∧
          Along step (Unfinished 2) k (List.replicate 4 (.exec 2)) ∧
          Act.exits k' (.exec 2) = some 2 ∧ k'.pids < 2 ^ 31 ∧
          (k'.pool 2).parent = some 1 ∧ k'.initProc = some 0 ∧
          sendsOf 2 k (List.replicate 4 (.exec 2)) = [])) = some true := by
    decide +kernel
  simp only [Option.bind_eq_some_iff, Option.map_eq_some_iff, decide_eq_true_eq] at hobs
  obtain ⟨k, hrun, k', hrun', hx, hunfinished, hexits, hpids, hparent, hinit, hnone⟩ := hobs
  obtain ⟨y, hy, hsent, -⟩ :=
    hall familyMachine exitWithChild (List.replicate 4 (.exec 2)) k k' 2 7
      (.exec 2) hrun hx hrun' hunfinished hexits hpids
  cases hparent.symm.trans hy
  rw [hnone, hinit] at hsent
  cases hsent

end SignalOS
