import SignalOS.Kernel.Pids

/-!
# The siginfo of a delivered signal

The table of siginfos is never cleared, so that an entry may be left over from an
earlier process of the slot.  What makes an entry good is the pending bit beside it,
and after that the turn of `do_signal` that took the bit.

* `lastSent` — the last signal of a kind sent to the process in a slot, since the slot
  was allocated.
* `step_awaitedBefore` — where a signal that a process awaits comes from; `Informed` — **its
  entry is always that of the last one sent**.
* `CopyKept` — no send changes a field that `do_signal` has copied; `CopyRight` — the
  invariant then.
* `siginfo_of_last_sent` — **a handler gets the siginfo of the last such signal**, if no send
  comes between the copy and the frame; `siginfo_outdated` — if one does, it may get an older one.
-/

namespace SignalOS

open Partial Runs

variable {k k' : Kernel} {a : Act} {c : CpuId} {j : Slot} {p q : Proc} {signo : Signo}

/-! ## The last signal -/

/-- The signal `signo`, if the act sends it to slot `j`. -/
def sendsNow (j : Slot) (signo : Signo) (k : Kernel) (a : Act) : Option Sent :=
  (a.sends k).filter fun s => s.target = j ∧ s.signo = signo

/-- The last signal `signo` for slot `j` after an act; an unused slot has none. -/
def lastSentStep (j : Slot) (signo : Signo) (last : Option Sent) (t : Kernel × Act) :
    Option Sent :=
  if (t.1.pool j).state = .unused then none else (sendsNow j signo t.1 t.2).or last

/-- The last signal `signo` that was sent to the process in slot `j` since its slot was
allocated. -/
def lastSent (j : Slot) (signo : Signo) (k : Kernel) (as : List Act) : Option Sent :=
  (trace step k as).foldl (lastSentStep j signo) none

theorem sendsNow_eq_some {s : Sent} (h : sendsNow j signo k a = some s) :
    a.sends k = some s ∧ s.target = j ∧ s.signo = signo := by
  obtain ⟨hsends, hto⟩ := Option.filter_eq_some_iff.1 h
  exact ⟨hsends, of_decide_eq_true hto⟩

/-! ## Where the signal comes from -/

/-- The copy of the siginfo of `signo` in `do_signal`: the fields still to come, and the copy. -/
def Context.copying (signo : Signo) : Context → Option (List SiginfoField × Siginfo)
  | .copyInfo signo' _ fields info => if signo' = signo then some (fields, info) else Option.none
  | _ => Option.none

/-- The signal is pending, or `do_signal` is about to start its handler. -/
def Proc.Awaits (p : Proc) (signo : Signo) : Prop :=
  p.pending signo = true ∨ (p.context.copying signo).isSome = true

theorem takeSignal_siginfos {n : Signo} (h : takeSignal n p = .next q) :
    q.signal.siginfos = p.signal.siginfos := by
  have hcase := h ▸ takeSignal_cases n p
  cases hcase <;> rfl

/-- The process awaited the signal before, with the same siginfo. -/
def AwaitedBefore (k : Kernel) (j : Slot) (signo : Signo) (p : Proc) : Prop :=
  p.state ≠ .unused → p.Awaits signo →
    (k.pool j).state ≠ .unused ∧ (k.pool j).Awaits signo ∧
      p.signal.siginfos signo = (k.pool j).signal.siginfos signo

/-- A process that comes from another one without a new signal. -/
theorem AwaitedBefore.of_same (hp : AwaitedBefore k j signo p)
    (hused : q.state ≠ .unused → p.state ≠ .unused)
    (hawaits : q.Awaits signo → p.Awaits signo)
    (hinfo : q.signal.siginfos signo = p.signal.siginfos signo) : AwaitedBefore k j signo q := by
  intro hq hq'
  obtain ⟨hk, hkp, hsame⟩ := hp (hused hq) (hawaits hq')
  exact ⟨hk, hkp, hinfo.trans hsame⟩

/-- An update keeps the signals that are awaited, and adds none but those sent. -/
theorem Upd.awaitedBefore (hsent : sendsNow j signo k a = none) (h : Upd k a j p q)
    (hp : AwaitedBefore k j signo p) : AwaitedBefore k j signo q := by
  cases h with
  | @receive n code sender hsends hctx hstate =>
    have hne : signo ≠ n := by
      rintro rfl
      simp [sendsNow, hsends] at hsent
    have hsame := SameProc.receive p n code sender
    refine hp.of_same (fun hused hunused => hused (hsame.unused_iff.2 hunused))
      (fun hawaits => ?_) ?_
    · rw [Proc.Awaits, hsame.context] at hawaits
      exact hawaits.imp_left (pending_of_receive p n code sender hne)
    · rw [receive_siginfos, Function.update_of_ne hne]
  | receiveKill hkills hk =>
    have hsame := SameProc.receiveKill p
    refine hp.of_same (fun hused hunused => hused (hsame.unused_iff.2 hunused))
      (fun hawaits => ?_) ?_
    · rw [Proc.Awaits, hsame.context, Proc.receiveKill, pending_wakeFrom] at hawaits
      exact hawaits
    · rw [Proc.receiveKill, siginfos_wakeFrom]
  | free => exact fun hused => absurd rfl hused
  | sigaction =>
    obtain ⟨sa, hsa⟩ := sysSigaction_proc _ p k.vm _ _ _
    rw [hsa]
    exact hp.of_same id id rfl
  | wakeup hsleeping => exact hp.of_same (fun _ => by simp [hsleeping]) id rfl
  | _ => exact hp.of_same id id rfl

/-- A new process awaits no signal. -/
theorem Born.awaitedBefore {pid : Int} (h : Born k a pid p q) : AwaitedBefore k j signo q := by
  intro hused hawaits
  have hempty : q.signal.sigpending = sigemptyset ∧ q.context.copying signo = none ∨
      q.state = .unused := by
    cases h with
    | fork => exact .inl ⟨rfl, rfl⟩
    | failed => exact .inr rfl
    | init => exact .inl ⟨rfl, rfl⟩
  rcases hempty with ⟨hempty, hcopy⟩ | hunused
  · rw [Proc.Awaits, Proc.pending, hempty, sigismember_sigemptyset, hcopy] at hawaits
    exact absurd hawaits (by decide)
  · exact absurd hunused hused

theorem Own.awaitedBefore {i : Slot} (h : Own k i p q) (hstate : p.state = .running)
    (hp : AwaitedBefore k j signo p) : AwaitedBefore k j signo q := by
  have hused' : p.state ≠ .unused := by simp [hstate]
  cases h with
  | goto hmoves =>
    refine hp.of_same (fun _ => hused') (fun hawaits => ?_) rfl
    refine hawaits.imp_right fun hcopy => ?_
    change ((_ : Context).copying signo).isSome = true at hcopy
    generalize p.context = context at hmoves ⊢
    cases hmoves with
    | copied n =>
      rw [Context.copying] at hcopy ⊢
      split at hcopy
      · rename_i hn
        rw [if_pos hn]
        rfl
      · cases hcopy
    | _ => cases hcopy
  | turn _ _ hturn =>
    have hpending := pending_of_taken (n := signo) hturn
    refine hp.of_same (fun _ => hused') (fun hawaits => ?_)
      (congrFun (takeSignal_siginfos hturn) signo)
    exact .inl (hawaits.elim hpending nofun)
  | @take n rest _ hctx hturn =>
    refine hp.of_same (fun _ => hused') (fun hawaits => ?_) rfl
    obtain ⟨hdel, -, -⟩ := takeSignal_handler hturn
    rcases hawaits with hpending | hcopy
    · exact .inl (Proc.pending_of_delPending hpending)
    · change ((Context.copyInfo n rest Siginfo.fields .zero).copying signo).isSome = true at hcopy
      rw [Context.copying] at hcopy
      split at hcopy
      · rename_i hn
        exact .inl (hn ▸ hdel.pending)
      · cases hcopy
  | install => exact hp.of_same (fun _ => hused') (fun hawaits => .inl (hawaits.elim id nofun)) rfl
  | park hparks =>
    refine hp.of_same (fun _ => hused') (fun hawaits => .inl (hawaits.elim id fun hcopy => ?_)) rfl
    generalize p.context = context at hparks
    cases hparks <;> cases hcopy
  | _ => exact hp.of_same (fun _ => hused') (fun hawaits => .inl (hawaits.elim id nofun)) rfl

/-- **A signal that a process awaits was awaited before**, with the same siginfo, unless it is sent
in the step. -/
theorem step_awaitedBefore (hsched : Sched k) (h : step k a = some k')
    (hsent : sendsNow j signo k a = none) :
    AwaitedBefore k j signo (k'.pool j) :=
  slot_step (I := AwaitedBefore k j signo) hsched h (fun _ _ hp hupd =>
    hupd.awaitedBefore hsent hp)
    (fun _ _ _ hborn => hborn.awaitedBefore)
    (fun hp hrunnable => hp.of_same (fun _ => by simp [hrunnable]) id rfl)
    (fun _ _ _ hp _ hstate hown => hown.awaitedBefore hstate hp)
    fun hused hawaits => ⟨hused, hawaits, rfl⟩

/-! ## The invariant -/

/-- The siginfo of every signal that a process awaits is that of the last one sent. -/
def Informed (m : Machine) (as : List Act) (k : Kernel) : Prop :=
  ∀ j signo, (k.pool j).state ≠ .unused → (k.pool j).Awaits signo →
    ∃ s, lastSent j signo (boot m) as = some s ∧ s.target = j ∧ s.signo = signo ∧
      (k.pool j).signal.siginfos signo = composedInfo signo s.code s.sender

theorem Informed.step {m : Machine} {as : List Act} (hI : Informed m as k)
    (hrun : run step (boot m) as = some k) (h : SignalOS.step k a = some k') :
    Informed m (as ++ [a]) k' := by
  intro j signo hused hawaits
  have hk : Reachable k := ⟨m, as, hrun⟩
  rw [lastSent, foldl_trace_concat _ _ hrun, lastSentStep]
  cases hsent : sendsNow j signo k a with
  | none =>
    obtain ⟨hused, hawaits, hinfo⟩ := step_awaitedBefore hk.sched h hsent hused hawaits
    obtain ⟨s, hlast, htarget, hsigno, hs⟩ := hI j signo hused hawaits
    exact ⟨s, (if_neg hused).trans hlast, htarget, hsigno, hinfo.trans hs⟩
  | some s =>
    obtain ⟨hsends, rfl, rfl⟩ := sendsNow_eq_some hsent
    obtain ⟨i, tf, context, -, hproc, -⟩ := step_sent h hsends
    rw [hproc] at hused ⊢
    have hused' : (k.pool s.target).state ≠ .unused :=
      fun hunused => hused ((SameProc.receive _ _ _ _).unused_iff.2 hunused)
    refine ⟨s, if_neg hused', rfl, rfl, ?_⟩
    exact (congrFun (receive_siginfos _ _ _ _) _).trans (Function.update_self _ _ _)

theorem run_informed {m : Machine} {as : List Act} (hrun : run step (boot m) as = some k) :
    Informed m as k := by
  have hboot : Informed m [] (boot m) := fun _ _ hused => absurd rfl hused
  exact run_induct_history (I := Informed m)
    (fun as k a k' hrun hI _ hstep => hI.step hrun hstep) hboot hrun along_true

/-! ## The copy -/

/-- No signal is sent to the process that changes a field of the siginfo that its `do_signal` has
copied already, and has not yet written to user memory. -/
def CopyKept (j : Slot) (k : Kernel) (a : Act) : Prop :=
  ∀ s ∈ a.sends k, s.target = j → ∀ copy ∈ (k.pool j).context.copying s.signo,
    copy.2.copyFields (composedInfo s.signo s.code s.sender) copy.1 = composedInfo s.signo s.code
      s.sender

instance (j : Slot) (k : Kernel) (a : Act) : Decidable (CopyKept j k a) :=
  inferInstanceAs (Decidable (∀ _ ∈ _, _ → ∀ _ ∈ _, _))

/-- The copy of a siginfo is right as far as it goes. -/
def CopyRight (p : Proc) : Prop :=
  ∀ signo, ∀ copy ∈ p.context.copying signo,
    copy.2.copyFields (p.signal.siginfos signo) copy.1 = p.signal.siginfos signo

/-- A process that copies nothing. -/
theorem CopyRight.of_none (h : ∀ signo, p.context.copying signo = none) : CopyRight p := by
  intro signo copy hcopy
  rw [h] at hcopy
  cases hcopy

theorem CopyRight.of_same (hp : CopyRight p) (hctx : q.context = p.context)
    (hinfo : q.signal.siginfos = p.signal.siginfos) : CopyRight q := by
  intro signo copy hcopy
  rw [hinfo]
  exact hp signo copy (hctx ▸ hcopy)

theorem Upd.copyRight (hkept : CopyKept j k a) (h : Upd k a j p q) (hp : CopyRight p) :
    CopyRight q := by
  cases h with
  | @receive n code sender hsends hctx =>
    have hsame := (SameProc.receive p n code sender).context
    intro signo copy hcopy
    rw [hsame] at hcopy
    rw [receive_siginfos]
    by_cases hn : signo = n
    · subst hn
      rw [Function.update_self]
      exact hkept _ hsends rfl copy (hctx ▸ hcopy)
    · rw [Function.update_of_ne hn]
      exact hp signo copy hcopy
  | receiveKill => exact hp.of_same (SameProc.receiveKill p).context (siginfos_wakeFrom _ _)
  | sigaction =>
    obtain ⟨sa, hsa⟩ := sysSigaction_proc _ p k.vm _ _ _
    rw [hsa]
    exact hp.of_same rfl rfl
  | free => exact .of_none fun _ => rfl
  | _ => exact hp.of_same rfl rfl

theorem Born.copyRight {pid : Int} (h : Born k a pid p q) : CopyRight q := by
  cases h with
  | fork => exact .of_none fun _ => rfl
  | failed => exact .of_none fun _ => rfl
  | init => exact .of_none fun _ => rfl

theorem Own.copyRight {i : Slot} (h : Own k i p q) (hp : CopyRight p) : CopyRight q := by
  cases h with
  | goto hmoves =>
    generalize hctx : p.context = context at hmoves
    cases hmoves with
    | copied n rest f fields info =>
      intro signo copy hcopy
      change copy ∈ (Context.copyInfo n rest fields _).copying signo at hcopy
      rw [Context.copying] at hcopy
      split at hcopy
      · rename_i hn
        cases hcopy
        subst hn
        have hfields := hp n (f :: fields, info) (by rw [hctx, Context.copying, if_pos rfl]; rfl)
        exact hfields
      · cases hcopy
    | _ => exact .of_none fun _ => rfl
  | take =>
    intro signo copy hcopy
    change copy ∈ (Context.copyInfo _ _ Siginfo.fields .zero).copying signo at hcopy
    rw [Context.copying] at hcopy
    split at hcopy
    · cases hcopy
      exact Siginfo.copyFields_fields _ _
    · cases hcopy
  | park hparks =>
    generalize p.context = context at hparks
    cases hparks <;> exact .of_none fun _ => rfl
  | _ => exact .of_none fun _ => rfl

theorem step_copyRight (hsched : Sched k) (hkept : CopyKept j k a) (h : step k a = some k')
    (hj : CopyRight (k.pool j)) : CopyRight (k'.pool j) :=
  slot_step hsched h (fun _ _ hp hupd => hupd.copyRight hkept hp) (fun _ _ _ hborn =>
    hborn.copyRight)
    (fun hp _ => hp.of_same rfl rfl) (fun _ _ _ hp _ _ hown => hown.copyRight hp) hj

/-! ## Delivery -/

/-- The process is in `do_signal`. -/
def Context.inDoSignal : Context → Bool
  | .doSignal _ => true
  | .copyInfo .. => true
  | _ => false

/-- What a step of a process in `do_signal` leaves: the memory as it was, or the frame of a
handler. -/
inductive Delivered (k : Kernel) (j : Slot) (k' : Kernel) : Prop
  | silent (vm : k'.vm = k.vm)
  | installed (signo : Signo) (rest : List Signo) (info : Siginfo) (mm : Mm)
      (hctx : (k.pool j).context = .copyInfo signo rest [] info) (hmm : (k.pool j).mm = some mm)
      (proc : k'.pool j = { (k.pool j).enterHandler signo with context := .stillAliveAfterSignal })
      (vm : k'.vm = frameWritten k.vm mm (k.pool j) info)

/-- The process goes on after the look at a signal. -/
theorem step_takeSignal {rest : List Signo} (h : step k a = some k') (hrun : a.runner k = some j)
    (hctx : (k.pool j).context = .doSignal (signo :: rest))
    (htaken : takeSignal signo (k.pool j) = .next q) :
    k'.pool j = { q with context := .doSignal rest } ∧ k'.vm = k.vm := by
  obtain ⟨c, rfl, hcpu⟩ := exec_of_runner h hrun (by simp [hctx])
  obtain ⟨next, k₁, hthread, hcarry⟩ := exec_of_step hcpu h
  simp only [hctx, thread, signalTurn, getProc_bind, htaken, modifyProc_bind, pure_eq_some]
    at hthread
  obtain ⟨rfl, rfl⟩ := hthread
  rw [carryOn, modifyProc_eq_some] at hcarry
  rw [hcarry, Kernel.setProc_pool_self, Kernel.setProc_pool_self]
  exact ⟨rfl, rfl⟩

theorem handlerTurn_delivered {rest : List Signo} {info : Siginfo} {next : Next} {k₁ : Kernel}
    (hctx : (k.pool j).context = .copyInfo signo rest [] info)
    (h : handlerTurn j signo rest info k = some (next, k₁))
    (hcarry : carryOn c j next k₁ = some ((), k')) : Delivered k j k' := by
  simp only [handlerTurn, bind_eq_some (x := getMm _), getMm_eq_some] at h
  obtain ⟨mm, k₂, ⟨hmm, rfl⟩, h⟩ := h
  simp only [getProc_bind, get_bind] at h
  by_cases hmap : FrameMapped k₂.vm mm (k₂.pool j)
  · simp only [startHandler_of_mapped hmap, modifyProc_bind, modify_bind, pure_eq_some] at h
    obtain ⟨rfl, rfl⟩ := h
    rw [carryOn, modifyProc_eq_some] at hcarry
    refine .installed signo rest info mm hctx hmm ?_ ?_
    · rw [hcarry, Kernel.setProc_pool_self]
      dsimp only
      rw [Kernel.setProc_pool_self]
    · rw [hcarry]
      rfl
  · simp only [startHandler_of_unmapped hmap, modifyProc_bind, modify_bind, pure_eq_some] at h
    obtain ⟨rfl, rfl⟩ := h
    rw [carryOn, modifyProc_eq_some] at hcarry
    rw [hcarry]
    exact .silent rfl

/-- **Everything that `do_signal` does to memory.** -/
theorem step_doSignal (h : step k a = some k') (hrun : a.runner k = some j)
    (hctx : (k.pool j).context.inDoSignal = true) : Delivered k j k' := by
  obtain ⟨c, rfl, hcpu⟩ := exec_of_runner h hrun fun huser => by rw [huser] at hctx; cases hctx
  obtain ⟨next, k₁, hthread, hcarry⟩ := exec_of_step hcpu h
  generalize hplace : (k.pool j).context = context at hctx hthread
  cases context with
  | doSignal signos =>
    cases signos with
    | nil =>
      obtain ⟨rfl, rfl⟩ := pure_eq_some.1 hthread
      rw [carryOn, modifyProc_eq_some] at hcarry
      rw [hcarry]
      exact .silent rfl
    | cons signo rest =>
      simp only [thread, signalTurn, getProc_bind] at hthread
      cases htaken : takeSignal signo (k.pool j)
      all_goals
        simp only [htaken, modifyProc_bind, pure_eq_some] at hthread
        obtain ⟨rfl, rfl⟩ := hthread
        rw [carryOn, modifyProc_eq_some] at hcarry
        rw [hcarry]
        exact .silent rfl
  | copyInfo signo rest fields info =>
    cases fields with
    | nil => exact handlerTurn_delivered hplace hthread hcarry
    | cons f fields =>
      simp only [thread, getProc_bind, pure_eq_some] at hthread
      obtain ⟨rfl, rfl⟩ := hthread
      rw [carryOn, modifyProc_eq_some] at hcarry
      rw [hcarry]
      exact .silent rfl
  | _ => cases hctx

/-- The step of the process in slot `j` writes nothing to memory, or the frame of the handler of
`signo` with the siginfo composed by the last `sys_sigkill` for `signo` that was addressed to this
process since its slot was allocated. -/
def WritesLastSent (m : Machine) (as : List Act) (k k' : Kernel) (j : Slot) : Prop :=
  k'.vm = k.vm ∨
  ∃ signo s mm, lastSent j signo (boot m) as = some s ∧ s.target = j ∧ s.signo = signo ∧
    (k.pool j).mm = some mm ∧ (k'.pool j).trapframe.a0 = ofInt signo.val ∧
    (k'.pool j).trapframe.a1 = frameSp (k.pool j).trapframe.sp ∧
    k'.vm = k.vm.store (walkaddr k.vm mm (frameSp (k.pool j).trapframe.sp))
      (frameBytes (Ucontext.save (k.pool j).signal.sigmask (k.pool j).trapframe)
        { siSigno := signo.val
          siCode := if signo = SIGCHLD then s.code else 0
          siPid := if signo = SIGUSR2 then -1 else s.sender
          siStatus := 0
          addr := 0 })

/-- **A handler gets the siginfo of the last signal**: in every run in which no signal is sent to
the process that changes what its `do_signal` has copied, and has not yet written, of a siginfo,
what `do_signal` writes is the frame with the siginfo of the last such signal. -/
theorem siginfo_of_last_sent (m : Machine) (as : List Act) (k k' : Kernel) (a : Act) (j : Slot)
    (hrun : run step (boot m) as = some k) (hkept : Along step (CopyKept j) (boot m) as)
    (hstep : step k a = some k') (hrunner : a.runner k = some j)
    (hctx : (k.pool j).context.inDoSignal = true) : WritesLastSent m as k k' j := by
  have hk : Reachable k := ⟨m, as, hrun⟩
  cases step_doSignal hstep hrunner hctx with
  | silent hvm => exact .inl hvm
  | installed signo rest info mm hplace hmm hproc hvm =>
    have hused : (k.pool j).state ≠ .unused := by simp [hk.sched.runner hrunner]
    have hcopy : ([], info) ∈ (k.pool j).context.copying signo := by
      rw [hplace, Context.copying, if_pos rfl]
      rfl
    have hright := slot_run (fun _ _ _ hsched hok h => step_copyRight hsched hok h) (Sched.boot m)
      hrun hkept (.of_none fun _ => rfl)
    have hinfo : info = (k.pool j).signal.siginfos signo := hright signo _ hcopy
    obtain ⟨s, hlast, htarget, hsigno, hs⟩ :=
      run_informed hrun j signo hused (.inr (Option.isSome_of_mem hcopy))
    refine .inr ⟨signo, s, mm, hlast, htarget, hsigno, hmm, by rw [hproc]; rfl, by rw [hproc]; rfl,
      ?_⟩
    rw [hvm, frameWritten, hinfo, hs]
    rfl

/-- `init` gives `SIGUSR0` a handler. -/
def handleUsr0 : List Act :=
  .loadInitApp :: enterUser 0 ++ [.userStore 0 0xfffef100 0x40] ++
    ecall 0 (callRegs .sigaction 1 0xfffef100 0) ++ leave 0

/-- It sends `SIGUSR0` to itself, and has copied the siginfo. -/
def sendSelf : List Act :=
  ecall 0 (callRegs .sigkill 1 1 5) ++ List.replicate 7 (.exec 0)

theorem siginfo_of_last_sent_self :
    ∃ k k', run step (boot initMachine) (handleUsr0 ++ sendSelf) = some k ∧
      step k (.exec 0) = some k' ∧
      (k'.pool 0).context = .stillAliveAfterSignal ∧
      WritesLastSent initMachine (handleUsr0 ++ sendSelf) k k' 0 := by
  have hobs : ((run step (boot initMachine) (handleUsr0 ++ sendSelf)).bind fun k =>
      (step k (.exec 0)).map fun k' =>
        decide (Along step (CopyKept 0) (boot initMachine) (handleUsr0 ++ sendSelf) ∧
          Act.runner k (.exec 0) = some 0 ∧ (k.pool 0).context.inDoSignal = true ∧
          (k'.pool 0).context = .stillAliveAfterSignal)) = some true := by
    decide +kernel
  simp only [Option.bind_eq_some_iff, Option.map_eq_some_iff, decide_eq_true_eq] at hobs
  obtain ⟨k, hrun, k', hstep, hkept, hrunner, hctx, hinstalled⟩ := hobs
  exact ⟨k, k', hrun, hstep, hinstalled,
    siginfo_of_last_sent initMachine _ k k' (.exec 0) 0 hrun hkept hstep hrunner hctx⟩

/-- `init` has a child, with pid 2, in user mode on CPU 1; while `init` is about to write the frame
for the signal that it sent to itself, the child sends it the same signal. -/
def sendDuringCopy : List Act :=
  handleUsr0 ++ ecall 0 (callRegs .fork 0 0 0) ++ leave 0 ++ enterUser 1 ++ sendSelf ++
    [.trap 1 .ecall (callRegs .sigkill 1 1 5), .exec 1, .exec 1]

/-- Where `do_signal` puts `si_pid`. -/
def pidAddr (k : Kernel) (mm : Mm) : Uint64 :=
  walkaddr k.vm mm (frameSp (k.pool 0).trapframe.sp) + 8

/-- The handler finds pid 1 in its siginfo, but the last signal came from pid 2. -/
theorem siginfo_outdated :
    ¬ ∀ (m : Machine) (as : List Act) (k k' : Kernel) (a : Act) (j : Slot),
      run step (boot m) as = some k → step k a = some k' → a.runner k = some j →
      (k.pool j).context.inDoSignal = true → WritesLastSent m as k k' j := by
  intro hall
  have hobs : ((run step (boot initMachine) sendDuringCopy).bind fun k =>
      (step k (.exec 0)).map fun k' =>
        decide (Act.runner k (.exec 0) = some 0 ∧ (k.pool 0).context.inDoSignal = true ∧
          (k'.pool 0).trapframe.a0 = 1 ∧
          lastSent 0 SIGUSR0 (boot initMachine) sendDuringCopy = some ⟨0, SIGUSR0, 5, 2⟩ ∧
          (k.pool 0).mm.map (fun mm => (k.vm.byte (pidAddr k mm), k'.vm.byte (pidAddr k mm))) =
            some (0, 1))) = some true := by
    decide +kernel
  simp only [Option.bind_eq_some_iff, Option.map_eq_some_iff, decide_eq_true_eq, Prod.mk.injEq]
    at hobs
  obtain ⟨k, hrun, k', hstep, hrunner, hctx, ha0, hsent, mm, hmm, hbefore, hafter⟩ := hobs
  rcases hall initMachine _ k k' (.exec 0) 0 hrun hstep hrunner hctx with
    hvm | ⟨signo, s, mm', hlast, -, -, hmm', hsigno, -, hvm⟩
  · rw [hvm, hbefore] at hafter
    exact absurd hafter (by decide)
  · have husr0 : ∀ n : Signo, ofInt n.val = 1 → n = SIGUSR0 := by decide
    obtain rfl := husr0 signo (hsigno.symm.trans ha0)
    cases hsent.symm.trans hlast
    cases hmm.symm.trans hmm'
    rw [hvm, Vm.store_byte, pidAddr, frameBytes] at hafter
    have hwritten := hafter.symm.trans (memmove_offset (i := 8)
      (by rw [← frameBytes, length_frameBytes]; decide) (by decide))
    rw [List.getElem_append_left (by rw [Siginfo.length_toBytes]; decide)] at hwritten
    exact absurd hwritten (by decide)

end SignalOS
