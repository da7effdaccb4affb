import SignalOS.Proc.Proc

/-!
# Sending a signal: the target's side

What `sys_sigkill` does to the process it found, under the lock of that process.

* `Proc.receive` — the new process, and whether it is to be put on the task queue.
* `signalled_receive` — what it leaves alone; `receive_state`, `receive_killed`,
  `receive_needStop`, `receive_pending` — what it changes.
-/

namespace SignalOS

/-- Make a process that is in state `s` runnable; the flag says that `add_task` is called. -/
def Proc.wakeFrom (p : Proc) (s : ProcState) : Proc × Bool :=
  if p.state = s then ({ p with state := .runnable }, true) else (p, false)

/-- The body of `sys_sigkill(pid, signo, code)` on the process found, called by a process
whose pid is `sender`. -/
def Proc.receive (p : Proc) (signo : Signo) (code sender : Int) : Proc × Bool :=
  let info : Siginfo := ⟨signo.val, 0, sender, 0, 0⟩
  let p := p.postSiginfo signo info
  if signo = SIGKILL then
    Proc.wakeFrom { p with killed := -10 - signo.val } .sleeping
  else if signo = SIGSTOP then
    (p.addPending signo).wakeFrom .sleeping
  else if signo = SIGCONT then
    let r := Proc.wakeFrom { p.addPending signo with needStop := 0 } .stopped
    (if r.1.pending SIGSTOP then r.1.delPending SIGSTOP else r.1, r.2)
  else if signo = SIGUSR2 then
    ((p.postSiginfo signo { info with siPid := -1 }).addPending signo, false)
  else if signo = SIGCHLD then
    ((p.postSiginfo signo { info with siCode := code }).addPending signo).wakeFrom .sleeping
  else (p.addPending signo, false)

theorem state_wakeFrom (p : Proc) (s : ProcState) :
    (p.wakeFrom s).1.state = if p.state = s then .runnable else p.state := by
  rw [Proc.wakeFrom]
  split <;> rfl

theorem flag_wakeFrom (p : Proc) (s : ProcState) : (p.wakeFrom s).2 = decide (p.state = s) := by
  rw [Proc.wakeFrom]
  split <;> simp [*]

/-! ## What receiving a signal leaves alone -/

/-- `q` is `p` except for the state, the marks and the pending signals with their siginfos. -/
def Signalled (p q : Proc) : Prop :=
  q = { p with
    state := q.state
    killed := q.killed
    needStop := q.needStop
    signal := { p.signal with
      siginfos := q.signal.siginfos
      sigpending := q.signal.sigpending } }

namespace Signalled

variable {p q r : Proc}

theorem trans (hpq : Signalled p q) (hqr : Signalled q r) : Signalled p r := by
  rw [Signalled] at *
  rw [hqr, hpq]

theorem wakeFrom (p : Proc) (s : ProcState) : Signalled p (p.wakeFrom s).1 := by
  rw [Proc.wakeFrom]
  split <;> rfl

theorem trapframe_eq (h : Signalled p q) : q.trapframe = p.trapframe := by
  rw [Signalled] at h
  rw [h]

theorem mm_eq (h : Signalled p q) : q.mm = p.mm := by
  rw [Signalled] at h
  rw [h]

theorem sigmask_eq (h : Signalled p q) : q.signal.sigmask = p.signal.sigmask := by
  rw [Signalled] at h
  rw [h]

theorem sa_eq (h : Signalled p q) : q.signal.sa = p.signal.sa := by
  rw [Signalled] at h
  rw [h]

theorem pid_eq (h : Signalled p q) : q.pid = p.pid := by
  rw [Signalled] at h
  rw [h]

theorem context_eq (h : Signalled p q) : q.context = p.context := by
  rw [Signalled] at h
  rw [h]

theorem exitCode_eq (h : Signalled p q) : q.exitCode = p.exitCode := by
  rw [Signalled] at h
  rw [h]

end Signalled

/-! ## The cases of `sys_sigkill` -/

variable (p : Proc) (signo : Signo) (code sender : Int)

/-- The siginfo `sys_sigkill` fills in. -/
def sigkillInfo (signo : Signo) (sender : Int) : Siginfo := ⟨signo.val, 0, sender, 0, 0⟩

/-- The process with the signal posted and pending. -/
def Proc.post (p : Proc) (signo : Signo) (info : Siginfo) : Proc :=
  (p.postSiginfo signo info).addPending signo

theorem receive_sigkill :
    p.receive SIGKILL code sender =
      Proc.wakeFrom { p.postSiginfo SIGKILL (sigkillInfo SIGKILL sender) with
        killed := -10 - SIGKILL.val } .sleeping := rfl

theorem receive_sigstop :
    p.receive SIGSTOP code sender =
      (p.post SIGSTOP (sigkillInfo SIGSTOP sender)).wakeFrom .sleeping := rfl

theorem receive_sigcont :
    p.receive SIGCONT code sender =
      let r :=
        Proc.wakeFrom { p.post SIGCONT (sigkillInfo SIGCONT sender) with needStop := 0 } .stopped
      (r.1.delPending SIGSTOP, r.2) := by
  refine Prod.ext ?_ rfl
  exact Proc.delPending_if_pending _ SIGSTOP

theorem receive_sigusr2 :
    p.receive SIGUSR2 code sender =
      (p.post SIGUSR2 { sigkillInfo SIGUSR2 sender with siPid := -1 }, false) := by
  have hpost : (p.postSiginfo SIGUSR2 (sigkillInfo SIGUSR2 sender)).postSiginfo SIGUSR2
      { sigkillInfo SIGUSR2 sender with siPid := -1 }
      = p.postSiginfo SIGUSR2 { sigkillInfo SIGUSR2 sender with siPid := -1 } := by
    simp only [Proc.postSiginfo, Function.update_idem]
  rw [Proc.post, ← hpost]
  rfl

theorem receive_sigchld :
    p.receive SIGCHLD code sender =
      (p.post SIGCHLD { sigkillInfo SIGCHLD sender with siCode := code }).wakeFrom .sleeping := by
  have hpost : (p.postSiginfo SIGCHLD (sigkillInfo SIGCHLD sender)).postSiginfo SIGCHLD
      { sigkillInfo SIGCHLD sender with siCode := code }
      = p.postSiginfo SIGCHLD { sigkillInfo SIGCHLD sender with siCode := code } := by
    simp only [Proc.postSiginfo, Function.update_idem]
  rw [Proc.post, ← hpost]
  rfl

/-- The signals `sys_sigkill` does not treat apart. -/
def Ordinary (signo : Signo) : Prop :=
  signo ≠ SIGKILL ∧ signo ≠ SIGSTOP ∧ signo ≠ SIGCONT ∧ signo ≠ SIGUSR2 ∧ signo ≠ SIGCHLD

theorem receive_ordinary {signo : Signo} (h : Ordinary signo) :
    p.receive signo code sender = (p.post signo (sigkillInfo signo sender), false) := by
  obtain ⟨hkill, hstop, hcont, husr2, hchld⟩ := h
  rw [Proc.receive, if_neg hkill, if_neg hstop, if_neg hcont, if_neg husr2, if_neg hchld]
  rfl

/-- To prove something of every signal, prove it of the five that are treated apart and of
the ordinary ones. -/
theorem signo_cases {motive : Signo → Prop} (kill : motive SIGKILL) (stop : motive SIGSTOP)
    (cont : motive SIGCONT) (usr2 : motive SIGUSR2) (chld : motive SIGCHLD)
    (ordinary : ∀ signo, Ordinary signo → motive signo) : motive signo := by
  by_cases hkill : signo = SIGKILL
  · exact hkill ▸ kill
  by_cases hstop : signo = SIGSTOP
  · exact hstop ▸ stop
  by_cases hcont : signo = SIGCONT
  · exact hcont ▸ cont
  by_cases husr2 : signo = SIGUSR2
  · exact husr2 ▸ usr2
  by_cases hchld : signo = SIGCHLD
  · exact hchld ▸ chld
  exact ordinary signo ⟨hkill, hstop, hcont, husr2, hchld⟩

theorem signalled_receive : Signalled p (p.receive signo code sender).1 := by
  have hwake (q : Proc) (s : ProcState) (h : Signalled p q) : Signalled p (q.wakeFrom s).1 :=
    h.trans (.wakeFrom q s)
  cases signo using signo_cases with
  | kill => exact receive_sigkill p code sender ▸ hwake _ _ rfl
  | stop => exact receive_sigstop p code sender ▸ hwake _ _ rfl
  | cont =>
    rw [receive_sigcont]
    have hpost : Signalled p { p.post SIGCONT (sigkillInfo SIGCONT sender) with needStop := 0 } :=
      rfl
    exact (hwake _ .stopped hpost).trans rfl
  | usr2 => exact receive_sigusr2 p code sender ▸ rfl
  | chld => exact receive_sigchld p code sender ▸ hwake _ _ rfl
  | ordinary signo h => exact receive_ordinary p code sender h ▸ rfl

/-! ## What receiving a signal changes -/

/-- The signal makes a process in this state runnable. -/
def Wakes (signo : Signo) (s : ProcState) : Prop :=
  ((signo = SIGKILL ∨ signo = SIGSTOP ∨ signo = SIGCHLD) ∧ s = .sleeping) ∨
    (signo = SIGCONT ∧ s = .stopped)

instance (signo : Signo) (s : ProcState) : Decidable (Wakes signo s) :=
  inferInstanceAs (Decidable (_ ∨ _))

theorem wakes_sigkill (s : ProcState) : Wakes SIGKILL s ↔ s = .sleeping := by
  cases s <;> decide

theorem wakes_sigstop (s : ProcState) : Wakes SIGSTOP s ↔ s = .sleeping := by
  cases s <;> decide

theorem wakes_sigchld (s : ProcState) : Wakes SIGCHLD s ↔ s = .sleeping := by
  cases s <;> decide

theorem wakes_sigcont (s : ProcState) : Wakes SIGCONT s ↔ s = .stopped := by
  cases s <;> decide

theorem pending_wakeFrom (p : Proc) (s : ProcState) (n : Signo) :
    (p.wakeFrom s).1.pending n = p.pending n := by
  rw [Proc.wakeFrom]
  split <;> rfl

theorem killed_wakeFrom (p : Proc) (s : ProcState) : (p.wakeFrom s).1.killed = p.killed := by
  rw [Proc.wakeFrom]
  split <;> rfl

theorem needStop_wakeFrom (p : Proc) (s : ProcState) : (p.wakeFrom s).1.needStop = p.needStop := by
  rw [Proc.wakeFrom]
  split <;> rfl

theorem not_wakes_ordinary {signo : Signo} (h : Ordinary signo) (s : ProcState) :
    ¬ Wakes signo s := by
  obtain ⟨hkill, hstop, hcont, -, hchld⟩ := h
  simp [Wakes, hkill, hstop, hcont, hchld]

theorem not_wakes_sigusr2 (s : ProcState) : ¬ Wakes SIGUSR2 s := by
  cases s <;> decide

theorem wakeFrom_of_wakes {p q : Proc} {signo : Signo} {s : ProcState}
    (hwakes : Wakes signo p.state ↔ p.state = s) (hq : q.state = p.state) :
    (q.wakeFrom s).1.state = (if Wakes signo p.state then .runnable else p.state) ∧
      (q.wakeFrom s).2 = decide (Wakes signo p.state) := by
  rw [state_wakeFrom, flag_wakeFrom, hq]
  simp only [hwakes, and_self]

/-- A process is made runnable, and put on the task queue, exactly if the signal wakes it. -/
theorem receive_state :
    (p.receive signo code sender).1.state = (if Wakes signo p.state then .runnable else p.state) ∧
      (p.receive signo code sender).2 = decide (Wakes signo p.state) := by
  cases signo using signo_cases with
  | kill => exact receive_sigkill p code sender ▸ wakeFrom_of_wakes (wakes_sigkill _) rfl
  | stop => exact receive_sigstop p code sender ▸ wakeFrom_of_wakes (wakes_sigstop _) rfl
  | cont => exact receive_sigcont p code sender ▸ wakeFrom_of_wakes (wakes_sigcont _) rfl
  | usr2 => simp [receive_sigusr2, not_wakes_sigusr2, Proc.post]
  | chld => exact receive_sigchld p code sender ▸ wakeFrom_of_wakes (wakes_sigchld _) rfl
  | ordinary signo h => simp [receive_ordinary p code sender h, not_wakes_ordinary h, Proc.post]

theorem receive_killed :
    (p.receive signo code sender).1.killed =
      if signo = SIGKILL then -10 - (SIGKILL.val : Int) else p.killed := by
  cases signo using signo_cases with
  | kill => simp [receive_sigkill, killed_wakeFrom]
  | stop => simp [receive_sigstop, killed_wakeFrom, Proc.post]
  | cont => simp [receive_sigcont, killed_wakeFrom, Proc.post]
  | usr2 => simp [receive_sigusr2, Proc.post]
  | chld => simp [receive_sigchld, killed_wakeFrom, Proc.post]
  | ordinary signo h => simp [receive_ordinary p code sender h, Proc.post, h.1]

theorem receive_needStop :
    (p.receive signo code sender).1.needStop = if signo = SIGCONT then 0 else p.needStop := by
  cases signo using signo_cases with
  | kill => simp [receive_sigkill, needStop_wakeFrom]
  | stop => simp [receive_sigstop, needStop_wakeFrom, Proc.post]
  | cont => simp [receive_sigcont, needStop_wakeFrom]
  | usr2 => simp [receive_sigusr2, Proc.post]
  | chld => simp [receive_sigchld, needStop_wakeFrom, Proc.post]
  | ordinary signo h => simp [receive_ordinary p code sender h, Proc.post, h.2.2.1]

@[simp] theorem pending_post (n : Signo) (info : Siginfo) :
    (p.post signo info).pending n = (p.pending n || decide (n = signo)) := by
  rw [Proc.post, Proc.pending_addPending, Proc.pending_postSiginfo]

theorem receive_pending (n : Signo) :
    (p.receive signo code sender).1.pending n =
      if signo = SIGKILL then p.pending n
      else if signo = SIGCONT then (p.pending n || decide (n = SIGCONT)) && !decide (n = SIGSTOP)
      else p.pending n || decide (n = signo) := by
  cases signo using signo_cases with
  | kill =>
    rw [receive_sigkill, pending_wakeFrom, if_pos rfl]
    rfl
  | stop => simp [receive_sigstop, pending_wakeFrom]
  | cont =>
    have hne : SIGCONT ≠ SIGKILL := by decide
    rw [receive_sigcont, if_neg hne, if_pos rfl, Proc.pending_delPending, pending_wakeFrom]
    exact congrArg (· && _) (pending_post p SIGCONT n _)
  | usr2 => simp [receive_sigusr2]
  | chld => simp [receive_sigchld, pending_wakeFrom]
  | ordinary signo h => simp [receive_ordinary p code sender h, h.1, h.2.2.1]

/-- Another signal that is pending was so before. -/
theorem pending_of_receive {n : Signo} (hne : n ≠ signo)
    (h : (p.receive signo code sender).1.pending n = true) : p.pending n = true := by
  rw [receive_pending] at h
  split at h
  · exact h
  · split at h
    · rename_i hcont
      rw [← hcont, decide_eq_false hne, Bool.or_false, Bool.and_eq_true] at h
      exact h.1
    · rwa [decide_eq_false hne, Bool.or_false] at h

/-- The siginfo that `sys_sigkill(pid, signo, code)` composes when it is called by the process with
the pid `sender`. -/
def composedInfo (signo : Signo) (code sender : Int) : Siginfo where
  siSigno := signo.val
  siCode := if signo = SIGCHLD then code else 0
  siPid := if signo = SIGUSR2 then -1 else sender
  siStatus := 0
  addr := 0

@[simp] theorem siginfos_wakeFrom (p : Proc) (s : ProcState) :
    (p.wakeFrom s).1.signal.siginfos = p.signal.siginfos := by
  rw [Proc.wakeFrom]
  split <;> rfl

@[simp] theorem siginfos_post (info : Siginfo) :
    (p.post signo info).signal.siginfos = Function.update p.signal.siginfos signo info := rfl

theorem receive_siginfos :
    (p.receive signo code sender).1.signal.siginfos =
      Function.update p.signal.siginfos signo (composedInfo signo code sender) := by
  cases signo using signo_cases with
  | kill => simp [receive_sigkill, sigkillInfo, composedInfo, Proc.postSiginfo]
  | stop => simp [receive_sigstop, sigkillInfo, composedInfo]
  | cont => simp [receive_sigcont, sigkillInfo, composedInfo]
  | usr2 => simp [receive_sigusr2, sigkillInfo, composedInfo]
  | chld => simp [receive_sigchld, sigkillInfo, composedInfo]
  | ordinary signo h =>
    obtain ⟨-, -, -, husr2, hchld⟩ := id h
    simp [receive_ordinary p code sender h, sigkillInfo, composedInfo, husr2, hchld]

end SignalOS
