import SignalOS.Kernel.Target
import SignalOS.Signal.Delivery

/-!
# Stopping and continuing

* `continue_not_lost` — **no stopped process has a pending `SIGCONT`**, when none is
  sent to a process between its test of `need_stop` and its stop.
* `last_request_wins_iff` — which of several requests `do_signal` obeys: **the last one
  wins exactly if it is a `SIGCONT`, or no `SIGCONT` was pending or sent before it**.
-/

namespace SignalOS

open Partial Runs

variable {k k' : Kernel} {a : Act} {c : CpuId} {i j : Slot} {p q : Proc}

/-! ## What a step does to the requests -/

/-- An update posts the signal that the act sends, or leaves the pending signals and at most
clears `need_stop`. -/
theorem Upd.requests (h : Upd k a j p q) :
    (∃ signo code sender, a.sends k = some ⟨j, signo, code, sender⟩ ∧
      p.context = (k.pool j).context ∧ q = (p.receive signo code sender).1) ∨
    ((∀ n, q.pending n = p.pending n) ∧
      (q.needStop = p.needStop ∨ (q.needStop = 0 ∧ p.context = .clearNeedStop))) := by
  cases h with
  | receive hsends hctx => exact .inl ⟨_, _, _, hsends, hctx, rfl⟩
  | receiveKill => exact .inr ⟨fun _ => pending_wakeFrom _ _ _, .inl (needStop_wakeFrom _ _)⟩
  | sigaction =>
    obtain ⟨sa, hsa⟩ := sysSigaction_proc _ p k.vm _ _ _
    exact .inr (hsa ▸ ⟨fun _ => rfl, .inl rfl⟩)
  | clearNeedStop _ hctx => exact .inr ⟨fun _ => rfl, .inr ⟨rfl, hctx⟩⟩
  | _ => exact .inr ⟨fun _ => rfl, .inl rfl⟩

/-- The thread is between two looks at pending signals. -/
def Context.scans : Context → Bool
  | .doSignal _ => true
  | _ => false

/-- Outside of `do_signal`, a process leaves its pending signals and `need_stop`. -/
theorem Own.requests (h : Own k i p q) (hctx : p.context.scans = false) :
    (∀ n, q.pending n = p.pending n) ∧ q.needStop = p.needStop := by
  cases h with
  | turn _ hscan =>
    rw [hscan] at hctx
    cases hctx
  | take _ hscan =>
    rw [hscan] at hctx
    cases hctx
  | _ => exact ⟨fun _ => rfl, rfl⟩

/-- What a turn of the scan does to the requests to stop and to continue. -/
inductive RequestTurn (signo : Signo) (p q : Proc) : Prop
  | stop (hsig : signo = SIGSTOP) (hpend : p.pending SIGSTOP = true)
      (hstop : q.pending SIGSTOP = false) (hcont : q.pending SIGCONT = p.pending SIGCONT)
      (hneed : q.needStop = 1) : RequestTurn signo p q
  | cont (hsig : signo = SIGCONT) (hpend : p.pending SIGCONT = true)
      (hstop : q.pending SIGSTOP = false) (hcont : q.pending SIGCONT = false)
      (hneed : q.needStop = 0) : RequestTurn signo p q
  | other (hnot : signo = SIGSTOP ∨ signo = SIGCONT → p.pending signo = false)
      (hstop : q.pending SIGSTOP = p.pending SIGSTOP)
      (hcont : q.pending SIGCONT = p.pending SIGCONT) (hneed : q.needStop = p.needStop) :
      RequestTurn signo p q

/-- The turns for other signals. -/
theorem RequestTurn.of_other {signo : Signo} (hstop : signo ≠ SIGSTOP) (hcont : signo ≠ SIGCONT)
    (hpend : ∀ n, n ≠ signo → q.pending n = p.pending n) (hneed : q.needStop = p.needStop) :
    RequestTurn signo p q :=
  .other (fun h => (h.elim hstop hcont).elim) (hpend _ hstop.symm) (hpend _ hcont.symm) hneed

theorem requestTurn_delPending {signo : Signo} (h : Deliverable p signo)
    (hpend : ∀ n, q.pending n = (p.delPending signo).pending n) (hneed : q.needStop = p.needStop) :
    RequestTurn signo p q := by
  refine .of_other (fun hs => h.blockable (.inr (.inl hs)))
    (fun hs => h.blockable (.inr (.inr hs)))
    (fun n hn => ?_) hneed
  rw [hpend, Proc.pending_delPending, decide_eq_false hn, Bool.not_false, Bool.and_true]

theorem takeSignal_requests {signo : Signo} (h : takeSignal signo p = .next q) :
    RequestTurn signo p q := by
  have hcase := h ▸ takeSignal_cases signo p
  cases hcase with
  | notPending hno => exact .other (fun _ => hno) rfl rfl rfl
  | kill hpend hsig =>
    subst hsig
    refine .of_other (by decide) (by decide) (fun n hn => ?_) rfl
    exact (Proc.pending_delPending p SIGKILL n).trans (by simp [hn])
  | stop hpend hsig =>
    exact .stop hsig hpend ((Proc.pending_delPending p SIGSTOP SIGSTOP).trans (by simp))
      ((Proc.pending_delPending p SIGSTOP SIGCONT).trans (by simp [SIGCONT, SIGSTOP])) rfl
  | cont hpend hsig =>
    refine .cont hsig hpend (by simp) ?_ rfl
    rw [Proc.pending_delPending]
    exact Bool.and_eq_false_imp.2 fun h => absurd h (by
      rw [show ((p.delPending SIGCONT).cancelStop).pending SIGCONT = (p.delPending SIGCONT).pending
        SIGCONT from rfl]
      simp)
  | masked hblock _ =>
    exact .of_other (fun hs => hblock (.inr (.inl hs))) (fun hs => hblock (.inr (.inr hs)))
      (fun _ _ => rfl) rfl
  | ignored hdel _ => exact requestTurn_delPending hdel (fun _ => rfl) rfl
  | default hdel _ _ => exact requestTurn_delPending hdel (fun _ => rfl) rfl

/-! ## No continue is lost -/

/-- The signals that the thread has still to look at. -/
def Context.signosLeft : Context → Option (List Signo)
  | .doSignal l => some l
  | .copyInfo _ l _ _ => some l
  | _ => Option.none

/-- How a pending `SIGCONT` and a stop that is under way exclude each other. -/
structure ContKept (p : Proc) : Prop where
  /-- A continue that was accepted has cleared `need_stop`, or is about to. -/
  cont : p.pending SIGCONT = true →
    p.needStop = 0 ∨ p.context = .none ∨ ∃ rest, p.context = .doSignal (SIGCONT :: rest)
  /-- None is pending from the test of `need_stop` on. -/
  stopping : p.context = .clearNeedStop ∨ p.context = .stop ∨ p.state = .stopped →
    p.pending SIGCONT = false
  /-- The scan follows the numbers of the signals. -/
  scan : ∀ l, p.context.signosLeft = some l → l <:+ allSignos

/-- A process that neither scans nor stops. -/
theorem ContKept.of_elsewhere
    (hcont : p.pending SIGCONT = true → p.needStop = 0 ∨ p.context = .none)
    (hscan : p.context.signosLeft = none) (hclear : p.context ≠ .clearNeedStop)
    (hstop : p.context ≠ .stop) (hstopped : p.state ≠ .stopped) : ContKept p where
  cont hpending := (hcont hpending).imp id .inl
  stopping h := by
    rcases h with h | h | h
    exacts [absurd h hclear, absurd h hstop, absurd h hstopped]
  scan l hl := nomatch hscan.symm.trans hl

/-- No `SIGCONT` is sent to a process that has tested `need_stop` and not yet stopped. -/
def ContInTime (k : Kernel) (a : Act) : Prop :=
  ∀ s ∈ a.sends k, s.signo = SIGCONT →
    (k.pool s.target).context ≠ .clearNeedStop ∧ (k.pool s.target).context ≠ .stop

instance (k : Kernel) (a : Act) : Decidable (ContInTime k a) :=
  inferInstanceAs (Decidable (∀ _ ∈ _, _))

theorem contKept_receive {signo : Signo} {code sender : Int} (hp : ContKept p)
    (htime : signo = SIGCONT → p.context ≠ .clearNeedStop ∧ p.context ≠ .stop) :
    ContKept (p.receive signo code sender).1 := by
  have hctx := (signalled_receive p signo code sender).context_eq
  have hpend : signo ≠ SIGCONT →
      (p.receive signo code sender).1.pending SIGCONT = p.pending SIGCONT := by
    intro hne
    rw [receive_pending, if_neg hne]
    split
    · rfl
    · simp [hne.symm]
  have hstopped : (p.receive signo code sender).1.state = .stopped →
      p.state = .stopped ∧ signo ≠ SIGCONT := by
    rw [(receive_state p signo code sender).1]
    split
    · exact nofun
    · rename_i hwakes
      exact fun hs => ⟨hs, fun hsigno => hwakes (.inr ⟨hsigno, hs⟩)⟩
  refine ⟨fun hpending => ?_, fun hstop => ?_, fun l hl => hp.scan l (hctx ▸ hl)⟩
  · rw [hctx, receive_needStop]
    split
    · exact .inl rfl
    · rename_i hne
      exact hp.cont (hpend hne ▸ hpending)
  · rw [hctx] at hstop
    have hne : signo ≠ SIGCONT := by
      intro hsigno
      rcases hstop with h | h | h
      · exact (htime hsigno).1 h
      · exact (htime hsigno).2 h
      · exact (hstopped h).2 hsigno
    rw [hpend hne]
    exact hp.stopping (hstop.imp id (.imp id fun h => (hstopped h).1))

theorem Upd.contKept (htime : ContInTime k a) (h : Upd k a j p q) (hp : ContKept p) :
    ContKept q := by
  rcases h.requests with ⟨signo, code, sender, hsends, hctx, rfl⟩ | ⟨hpend, hneed⟩
  · exact contKept_receive hp fun hsigno => hctx ▸ htime _ hsends hsigno
  rcases h.cases with hsame | ⟨-, rfl⟩
  · refine ⟨fun hpending => ?_, fun hstop => ?_, fun l hl => hp.scan l (hsame.context ▸ hl)⟩
    · rw [hsame.context]
      rcases hneed with heq | ⟨heq, -⟩
      · rw [heq]
        exact hp.cont (hpend SIGCONT ▸ hpending)
      · exact .inl heq
    · rw [hpend]
      refine hp.stopping (hsame.context ▸ hstop.imp id (.imp id fun h => ?_))
      rcases hsame.state with heq | ⟨-, hwoken⟩
      · exact heq.symm.trans h
      · rw [hwoken] at h
        cases h
  · exact .of_elsewhere (fun _ => .inr rfl) rfl nofun nofun nofun

theorem Born.contKept {pid : Int} (h : Born k a pid p q) : ContKept q := by
  cases h with
  | fork => exact .of_elsewhere (fun _ => .inl rfl) rfl nofun nofun nofun
  | failed => exact .of_elsewhere (fun _ => .inl rfl) rfl nofun nofun nofun
  | init => exact .of_elsewhere (fun _ => .inl rfl) rfl nofun nofun nofun

theorem Moves.contKept {context : Context} (h : Moves p p.context context)
    (hstate : p.state = .running)
    (hp : ContKept p) : ContKept { p with context := context } := by
  have hzero (hpending : p.pending SIGCONT = true) : p.needStop = 0 := by
    rcases hp.cont hpending with hzero | hnone | ⟨rest, hscan⟩
    · exact hzero
    · rw [hnone] at h
      cases h
    · rw [hscan] at h
      cases h
  refine ⟨fun hpending => .inl (hzero hpending), fun hstop => ?_, fun l hl => ?_⟩
  · change p.pending SIGCONT = false
    by_contra hpending
    rw [Bool.not_eq_false] at hpending
    rcases hstop with hc | hc | hc
    · cases hc
      generalize p.context = place at h
      cases h with
      | needStop hneed => exact hneed (hzero hpending)
    · cases hc
      generalize hplace : p.context = place at h
      cases h
      exact absurd (hp.stopping (.inl hplace)) (by simp [hpending])
    · exact absurd (hstate.symm.trans hc) (by decide)
  · change context.signosLeft = some l at hl
    generalize hplace : p.context = place at h
    cases h with
    | signals | yielded =>
      cases hl
      exact List.suffix_refl _
    | copied | dropped => exact hp.scan l (hplace ▸ hl)
    | _ => cases hl

theorem allSignos_after_stop {rest : List Signo} (h : SIGSTOP :: rest <:+ allSignos) :
    rest = [SIGCONT, SIGSEGV, SIGINT] := by
  have hdrop : ∀ n < 11, (allSignos.drop n).head? = some SIGSTOP →
      (allSignos.drop n).tail = [SIGCONT, SIGSEGV, SIGINT] := by decide
  have hsuffix := List.suffix_iff_eq_drop.1 h
  have htail := hdrop (allSignos.length - (SIGSTOP :: rest).length)
    (Nat.lt_of_le_of_lt (Nat.sub_le _ _) (by decide)) (by rw [← hsuffix, List.head?_cons])
  rwa [← hsuffix, List.tail_cons] at htail

/-- After a turn a pending continue has cleared `need_stop`, unless the turn was for `SIGSTOP`. -/
theorem ContKept.turn {signo : Signo} {rest : List Signo} (hp : ContKept p)
    (hplace : p.context = .doSignal (signo :: rest)) (h : RequestTurn signo p q)
    (hpending : q.pending SIGCONT = true) : signo = SIGSTOP ∨ q.needStop = 0 := by
  cases h with
  | stop hsig => exact .inl hsig
  | cont _ _ _ _ hneed => exact .inr hneed
  | other hnot _ hcont hneed =>
    have hold := hcont.symm.trans hpending
    rcases hp.cont hold with h | h | ⟨rest', h⟩
    · exact .inr (hneed.trans h)
    · rw [hplace] at h
      cases h
    · rw [hplace] at h
      cases h
      exact absurd (hold.symm.trans (hnot (.inr rfl))) (by decide)

theorem Own.contKept (h : Own k i p q) (hstate : p.state = .running) (hp : ContKept p) :
    ContKept q := by
  -- outside of the scan and on a CPU, an accepted continue has cleared `need_stop`
  have hzero (hplace : p.context.scans = false) (hnone : p.context ≠ .none)
      (hpending : p.pending SIGCONT = true) : p.needStop = 0 := by
    rcases hp.cont hpending with h | h | ⟨rest, h⟩
    · exact h
    · exact absurd h hnone
    · rw [h] at hplace
      cases hplace
  cases h with
  | goto hmoves => exact hmoves.contKept hstate hp
  | park hparks =>
    generalize hplace : p.context = place at hparks
    cases hparks with
    | stop =>
      have hnot := hp.stopping (.inr (.inl hplace))
      exact ⟨fun hpending => absurd (hpending.symm.trans hnot) (by decide), fun _ => hnot, nofun⟩
    | _ =>
      exact .of_elsewhere (fun hpending =>
        .inl (hzero (by rw [hplace]; rfl) (by rw [hplace]; nofun) hpending))
        rfl nofun nofun nofun
  | die hplace =>
    exact .of_elsewhere (fun hpending => .inl (hzero (by rw [hplace]; rfl) (by rw [hplace]; nofun)
      hpending))
      rfl nofun nofun nofun
  | trap hplace =>
    exact .of_elsewhere (fun hpending => .inl (hzero (by rw [hplace]; rfl) (by rw [hplace]; nofun)
      hpending))
      rfl nofun nofun (by rw [hstate]; nofun)
  | fault _ hplace =>
    exact .of_elsewhere (fun hpending => .inl (hzero (by rw [hplace]; rfl) (by rw [hplace]; nofun)
      hpending))
      rfl nofun nofun (by rw [hstate]; nofun)
  | @turn signo rest q _ hplace hturn =>
    have hrun : q.state = .running := (takeSignal_state hstate hturn).trans hstate
    have hleft : p.context.signosLeft = some (signo :: rest) := by rw [hplace]; rfl
    refine ⟨fun hpending => ?_, fun hstop => ?_, fun l hl => ?_⟩
    · rcases hp.turn hplace (takeSignal_requests hturn) hpending with rfl | hneed
      · exact .inr (.inr ⟨_, congrArg Context.doSignal (allSignos_after_stop (hp.scan _ hleft))⟩)
      · exact .inl hneed
    · rcases hstop with h | h | h
      · cases h
      · cases h
      · exact absurd (hrun.symm.trans h) (by decide)
    · cases hl
      exact (List.suffix_cons _ _).trans (hp.scan _ hleft)
  | @take signo rest _ hplace hturn =>
    obtain ⟨hdel, -, -⟩ := takeSignal_handler hturn
    have hrequest : RequestTurn signo p (p.delPending signo) :=
      requestTurn_delPending hdel (fun _ => rfl) rfl
    refine ⟨fun hpending => ?_, fun hstop => ?_, fun l hl => ?_⟩
    · rcases hp.turn hplace hrequest hpending with hsig | hneed
      · exact absurd (.inr (.inl hsig)) hdel.blockable
      · exact .inl hneed
    · rcases hstop with h | h | h
      · cases h
      · cases h
      · exact absurd (hstate.symm.trans h) (by decide)
    · cases hl
      exact (List.suffix_cons _ _).trans (hp.scan _ (by rw [hplace]; rfl))
  | install _ hplace =>
    exact .of_elsewhere (fun hpending => .inl (hzero (by rw [hplace]; rfl) (by rw [hplace]; nofun)
      hpending))
      rfl nofun nofun fun h => absurd (hstate.symm.trans h) (by decide)

theorem step_contKept (hsched : Sched k) (htime : ContInTime k a) (h : step k a = some k')
    (hj : ContKept (k.pool j)) : ContKept (k'.pool j) :=
  slot_step hsched h (fun _ _ hp hupd => hupd.contKept htime hp) (fun _ _ _ hborn =>
    hborn.contKept)
    (fun hp _ => ⟨hp.cont, fun hstop => hp.stopping (hstop.imp id (.imp id nofun)), hp.scan⟩)
    (fun _ _ _ hp _ hstate hown => hown.contKept hstate hp) hj

/-- **No continue is lost to a stop**: in every state of a run in which no `SIGCONT` is sent to a
process that has tested `need_stop` and not yet stopped, no stopped process has one pending. -/
theorem continue_not_lost (m : Machine) (as : List Act) (k : Kernel)
    (hrun : run step (boot m) as = some k) (hok : Along step ContInTime (boot m) as) (j : Slot) :
    ¬ ((k.pool j).state = .stopped ∧ (k.pool j).pending SIGCONT = true) := by
  have hboot : ContKept ((boot m).pool j) :=
    .of_elsewhere (fun _ => .inr rfl) rfl nofun nofun nofun
  have hkept := slot_run (fun _ _ _ hsched htime h => step_contKept hsched htime h) (Sched.boot m)
    hrun hok hboot
  rintro ⟨hstopped, hpending⟩
  exact absurd (hkept.stopping (.inr (.inr hstopped))) (by simp [hpending])

/-- The child gets `SIGSTOP` in user mode, and its thread takes `n` steps after the next trap. -/
def stopChild (n : Nat) : List Act :=
  forkChild ++ enterUser 1 ++ sendChild SIGSTOP ++ .exec 0 :: leave 0 ++
    .trap 1 .external .zero :: List.replicate n (.exec 1)

theorem continue_not_lost_stopChild :
    ∃ k, run step (boot initMachine) (stopChild 17) = some k ∧
      ¬ ((k.pool 1).state = .stopped ∧ (k.pool 1).pending SIGCONT = true) := by
  have hsome : (run step (boot initMachine) (stopChild 17)).isSome = true := by decide +kernel
  obtain ⟨k, hrun⟩ := Option.isSome_iff_exists.1 hsome
  exact ⟨k, hrun, continue_not_lost initMachine (stopChild 17) k hrun (by decide +kernel) 1⟩

/-- `init` sends `SIGCONT` after the child has cleared `need_stop`, and the child stops. -/
theorem continue_lost :
    ¬ ∀ (k : Kernel) (j : Slot), Reachable k →
      ¬ ((k.pool j).state = .stopped ∧ (k.pool j).pending SIGCONT = true) := by
  intro hall
  have hobs : (run step (boot initMachine)
      (stopChild 16 ++ sendChild SIGCONT ++ [.exec 0, .exec 1])).map
        (fun k => ((k.pool 1).state, (k.pool 1).pending SIGCONT)) = some (.stopped, true) := by
    decide +kernel
  obtain ⟨k, hrun, hobs⟩ := Option.map_eq_some_iff.1 hobs
  rw [Prod.mk.injEq] at hobs
  exact hall k 1 ⟨initMachine, _, hrun⟩ hobs

/-! ## Which request wins -/

/-- The signals that the acts of a run send to a slot, in order. -/
def sentTo (j : Slot) (k : Kernel) (as : List Act) : List Signo :=
  (trace step k as).filterMap fun t =>
    (t.2.sends t.1).bind fun s => if s.target = j then some s.signo else none

/-- Up to its next `do_signal` the process gets no signal but `SIGSTOP` and `SIGCONT`. -/
structure BeforeScan (j : Slot) (k : Kernel) (a : Act) : Prop where
  inUse : InUse j k a
  request : ∀ s ∈ a.sends k, s.target = j → s.signo = SIGSTOP ∨ s.signo = SIGCONT
  noTurn : a.runner k = some j → (k.pool j).context.scans = false

/-- During the scan the process gets no signal. -/
structure DuringScan (j : Slot) (k : Kernel) (a : Act) : Prop where
  scans : (k.pool j).context.scans = true
  noSend : ∀ s ∈ a.sends k, s.target ≠ j

instance (j : Slot) (k : Kernel) (a : Act) : Decidable (BeforeScan j k a) :=
  decidable_of_iff (InUse j k a ∧
      (∀ s ∈ a.sends k, s.target = j → s.signo = SIGSTOP ∨ s.signo = SIGCONT) ∧
      (a.runner k = some j → (k.pool j).context.scans = false))
    ⟨fun h => ⟨h.1, h.2.1, h.2.2⟩, fun h => ⟨h.inUse, h.request, h.noTurn⟩⟩

instance (j : Slot) (k : Kernel) (a : Act) : Decidable (DuringScan j k a) :=
  decidable_of_iff ((k.pool j).context.scans = true ∧ ∀ s ∈ a.sends k, s.target ≠ j)
    ⟨fun h => ⟨h.1, h.2⟩, fun h => ⟨h.scans, h.noSend⟩⟩

/-- A step that sends the process nothing and is no turn of its scan leaves its pending signals. -/
theorem step_pending (hsched : Sched k) (hbefore : BeforeScan j k a) (h : step k a = some k')
    (hsends : ∀ s ∈ a.sends k, s.target ≠ j) (n : Signo) :
    (k'.pool j).pending n = (k.pool j).pending n := by
  refine slot_step (I := fun p => p.pending n = (k.pool j).pending n) hsched h
    (fun p q hp hupd => ?_)
    (fun _ _ hunused => absurd hunused hbefore.inUse) (fun hp _ => hp)
    (fun hrunner p q hp hrun _ hown => ?_) rfl
  · rcases hupd.requests with ⟨_, _, _, hsend, -⟩ | ⟨hsame, -⟩
    · exact absurd rfl (hsends _ hsend)
    · exact (hsame n).trans hp
  · have hplace : p.context.scans = false := hrun.2 ▸ hbefore.noTurn hrunner
    exact ((hown.requests hplace).1 n).trans hp

/-- A step that sends the process a request makes it pending. -/
theorem step_pending_sent {s : Sent} (h : step k a = some k') (hsends : a.sends k = some s)
    (hsigno : s.signo = SIGSTOP ∨ s.signo = SIGCONT) (n : Signo) :
    (k'.pool s.target).pending n =
      ((k.pool s.target).receive s.signo s.code s.sender).1.pending n := by
  have husr2 : s.signo ≠ SIGUSR2 := by
    rcases hsigno with h | h <;> rw [h] <;> decide
  have hchld : s.signo ≠ SIGCHLD := by
    rcases hsigno with h | h <;> rw [h] <;> decide
  obtain ⟨i, tf, -, -, hpool⟩ := step_sends h hsends husr2 hchld
  rw [hpool]
  split <;> rfl

theorem pending_receive_stop (p : Proc) (code sender : Int) (n : Signo) :
    (p.receive SIGSTOP code sender).1.pending n = (p.pending n || decide (n = SIGSTOP)) := by
  rw [receive_pending, if_neg (by decide), if_neg (by decide)]

theorem pending_receive_cont (p : Proc) (code sender : Int) (n : Signo) :
    (p.receive SIGCONT code sender).1.pending n =
      ((p.pending n || decide (n = SIGCONT)) && !decide (n = SIGSTOP)) := by
  rw [receive_pending, if_neg (by decide), if_pos rfl]

/-- What is pending after the requests `ss` to a process with these pending signals. -/
structure Requested (pending : Signo → Bool) (ss : List Signo) (p : Proc) : Prop where
  only : ∀ n, p.pending n = true → n = SIGSTOP ∨ n = SIGCONT
  cont : p.pending SIGCONT = true ↔ pending SIGCONT = true ∨ SIGCONT ∈ ss
  stop : ∀ signo, ss.getLast? = some signo → p.pending SIGSTOP = decide (signo = SIGSTOP)
  requests : ∀ signo ∈ ss, signo = SIGSTOP ∨ signo = SIGCONT

theorem Requested.start (hpend : ∀ n, p.pending n = true → n = SIGSTOP ∨ n = SIGCONT) :
    Requested p.pending [] p where
  only := hpend
  cont := by simp
  stop := by simp
  requests := by simp

/-- One more request. -/
theorem Requested.snoc {pending : Signo → Bool} {ss : List Signo} {signo : Signo}
    {code sender : Int}
    (h : Requested pending ss p) (hsigno : signo = SIGSTOP ∨ signo = SIGCONT)
    (hq : ∀ n, q.pending n = (p.receive signo code sender).1.pending n) :
    Requested pending (ss ++ [signo]) q := by
  have hreq : ∀ n ∈ ss ++ [signo], n = SIGSTOP ∨ n = SIGCONT := by
    intro n hn
    rcases List.mem_append.1 hn with hn | hn
    · exact h.requests n hn
    · exact List.mem_singleton.1 hn ▸ hsigno
  rcases hsigno with rfl | rfl
  · simp only [pending_receive_stop] at hq
    refine ⟨fun n hn => ?_, ?_, fun n hn => ?_, hreq⟩
    · rw [hq, Bool.or_eq_true, decide_eq_true_eq] at hn
      exact hn.elim (h.only n) .inl
    · have hne : ¬ SIGCONT = SIGSTOP := by decide
      simp [hq, h.cont, hne]
    · rw [List.getLast?_concat, Option.some_inj] at hn
      simp [hq, hn.symm]
  · simp only [pending_receive_cont] at hq
    refine ⟨fun n hn => ?_, ?_, fun n hn => ?_, hreq⟩
    · rw [hq, Bool.and_eq_true, Bool.or_eq_true, decide_eq_true_eq] at hn
      exact hn.1.elim (h.only n) .inr
    · have hne : ¬ SIGCONT = SIGSTOP := by decide
      simp [hq, hne]
    · rw [List.getLast?_concat, Option.some_inj] at hn
      have hne : ¬ SIGCONT = SIGSTOP := by decide
      simp [hq, hn.symm, hne]

theorem sentTo_concat {as : List Act} (hrun : run step k as = some k') :
    sentTo j k (as ++ [a]) =
      sentTo j k as ++ ((a.sends k').bind fun s => if s.target = j then some s.signo
        else none).toList := by
  rw [sentTo, filterMap_trace_concat _ hrun]
  rfl

/-- What is pending after a run up to the scan. -/
theorem run_requested {as : List Act} (hsched : Sched k) (hrun : run step k as = some k')
    (hbefore : Along step (BeforeScan j) k as)
    (hpend : ∀ n, (k.pool j).pending n = true → n = SIGSTOP ∨ n = SIGCONT) :
    Requested (k.pool j).pending (sentTo j k as) (k'.pool j) := by
  have hinv := run_induct_history
    (I := fun as t => Sched t ∧ Requested (k.pool j).pending (sentTo j k as) (t.pool j))
    (fun as t a u hrun hI hok hstep => ?_) ⟨hsched, .start hpend⟩ hrun hbefore
  · exact hinv.2
  obtain ⟨hsched, hreq⟩ := hI
  refine ⟨hsched.step hstep, ?_⟩
  rw [sentTo_concat hrun]
  by_cases hsends : ∃ s ∈ a.sends t, s.target = j
  · obtain ⟨s, hs, rfl⟩ := hsends
    have hsigno := hok.request s hs rfl
    have hsnoc := hreq.snoc hsigno (step_pending_sent hstep hs hsigno)
    rwa [show a.sends t = some s from hs, Option.bind_some, if_pos rfl]
  · have hnone : ((a.sends t).bind fun s => if s.target = j then some s.signo else none) =
        none := by
      rw [Option.bind_eq_none_iff]
      exact fun s hs => if_neg fun heq => hsends ⟨s, hs, heq⟩
    have hsame (n : Signo) : (u.pool j).pending n = (t.pool j).pending n :=
      step_pending hsched hok hstep (fun s hs heq => hsends ⟨s, hs, heq⟩) n
    rw [hnone, Option.toList_none, List.append_nil]
    exact ⟨fun n hn => hreq.only n (hsame n ▸ hn), hsame SIGCONT ▸ hreq.cont,
      hsame SIGSTOP ▸ hreq.stop, hreq.requests⟩

/-- `need_stop` after the rest of a scan in which only requests are pending. -/
def afterScan (l : List Signo) (p : Proc) : Int :=
  if p.pending SIGCONT = true ∧ SIGCONT ∈ l then 0
  else if p.pending SIGSTOP = true ∧ SIGSTOP ∈ l then 1
  else p.needStop

theorem afterScan_turn {signo : Signo} {rest : List Signo} (h : RequestTurn signo p q) :
    afterScan rest q = afterScan (signo :: rest) p := by
  cases h with
  | stop hsig hpend hstop hcont hneed =>
    have hne : ¬ SIGCONT = SIGSTOP := by decide
    simp [afterScan, hsig, hpend, hstop, hcont, hneed, hne]
  | cont hsig hpend hstop hcont hneed =>
    simp [afterScan, hsig, hpend, hstop, hcont, hneed]
  | other hnot hstop hcont hneed =>
    have hmem (n : Signo) (hn : n = SIGSTOP ∨ n = SIGCONT) :
        p.pending n = true ∧ n ∈ signo :: rest ↔ p.pending n = true ∧ n ∈ rest := by
      rw [List.mem_cons]
      refine and_congr_right fun hpending => or_iff_right fun hsig => ?_
      subst hsig
      rw [hnot hn] at hpending
      cases hpending
    simp only [afterScan, hstop, hcont, hneed, hmem SIGCONT (.inr rfl), hmem SIGSTOP (.inl rfl)]

/-- A scan in which only requests are pending, and which leaves `v` in `need_stop`. -/
structure Scanning (v : Int) (p : Proc) : Prop where
  running : p.state = .running
  only : ∀ n, p.pending n = true → n = SIGSTOP ∨ n = SIGCONT
  result : (∃ l, p.context = .doSignal l ∧ afterScan l p = v) ∨
    (p.context = .stillAliveAfterSignal ∧ p.needStop = v)

theorem Upd.scanning {v : Int} (hduring : DuringScan j k a) (h : Upd k a j p q)
    (hp : Scanning v p) : Scanning v q := by
  obtain ⟨hstate, hctx⟩ := h.running hp.running
  rcases h.requests with ⟨_, _, _, hsend, -⟩ | ⟨hpend, hneed⟩
  · exact absurd rfl (hduring.noSend _ hsend)
  have hneed : q.needStop = p.needStop := by
    rcases hneed with heq | ⟨-, hplace⟩
    · exact heq
    · rcases hp.result with ⟨l, h, -⟩ | ⟨h, -⟩
      all_goals
        rw [hplace] at h
        cases h
  refine ⟨hstate, fun n hn => hp.only n (hpend n ▸ hn), ?_⟩
  simp only [afterScan, hctx, hpend, hneed]
  exact hp.result

theorem Own.scanning {v : Int} (h : Own k i p q) (hplace : p.context.scans = true)
    (hp : Scanning v p) : Scanning v q := by
  obtain ⟨l, hctx, hresult⟩ : ∃ l, p.context = .doSignal l ∧ afterScan l p = v := by
    rcases hp.result with hscan | ⟨hdone, -⟩
    · exact hscan
    · rw [hdone] at hplace
      cases hplace
  cases h with
  | goto hmoves =>
    rw [hctx] at hmoves
    cases hmoves
    have hend : p.needStop = v := by simpa [afterScan] using hresult
    exact ⟨hp.running, hp.only, .inr ⟨rfl, hend⟩⟩
  | park hparks =>
    rw [hctx] at hparks
    cases hparks
  | die h =>
    rw [hctx] at h
    cases h
  | trap h =>
    rw [hctx] at h
    cases h
  | fault _ h =>
    rw [hctx] at h
    cases h
  | turn _ h hturn =>
    cases hctx.symm.trans h
    refine ⟨(takeSignal_state hp.running hturn).trans hp.running,
      fun n hn => hp.only n (pending_of_taken hturn hn), .inl ⟨_, rfl, ?_⟩⟩
    exact (afterScan_turn (takeSignal_requests hturn)).trans hresult
  | take _ _ hturn =>
    -- a pending signal with a handler is no request
    obtain ⟨hdel, -, -⟩ := takeSignal_handler hturn
    rcases hp.only _ hdel.pending with hsig | hsig
    · exact absurd (.inr (.inl hsig)) hdel.blockable
    · exact absurd (.inr (.inr hsig)) hdel.blockable
  | install _ hstart => cases hctx.symm.trans hstart

theorem step_scanning {v : Int} (hsched : Sched k) (hduring : DuringScan j k a)
    (h : step k a = some k') (hj : Scanning v (k.pool j)) : Scanning v (k'.pool j) :=
  slot_step hsched h (fun _ _ hp hupd => hupd.scanning hduring hp)
    (fun _ _ hunused => absurd (hunused.symm.trans hj.running) (by decide))
    (fun hp hrunnable => absurd (hrunnable.symm.trans hp.running) (by decide))
    (fun _ _ _ hp hrun _ hown => hown.scanning (hrun.2 ▸ hduring.scans) hp) hj

/-- **Which of several requests wins.**  Requests to stop and to continue are sent to a process
with no other pending signal, and then it makes a scan: `need_stop` is what the last request asks
for exactly if that is `SIGCONT`, or no `SIGCONT` was pending before or among the requests. -/
theorem last_request_wins_iff (k k₁ k₂ : Kernel) (j : Slot) (as bs : List Act) (signo : Signo)
    (hk : Reachable k) (hpend : ∀ n, (k.pool j).pending n = true → n = SIGSTOP ∨ n = SIGCONT)
    (hrun : run step k as = some k₁) (hbefore : Along step (BeforeScan j) k as)
    (hlast : (sentTo j k as).getLast? = some signo)
    (hstart : (k₁.pool j).context = .doSignal allSignos)
    (hscan : run step k₁ bs = some k₂) (hduring : Along step (DuringScan j) k₁ bs)
    (hend : (k₂.pool j).context = .stillAliveAfterSignal) :
    (k₂.pool j).needStop = (if signo = SIGSTOP then 1 else 0) ↔
      signo = SIGCONT ∨ ((k.pool j).pending SIGCONT = false ∧ SIGCONT ∉ sentTo j k as) := by
  have hk₁ := hk.run hrun
  have hreq := run_requested hk.sched hrun hbefore hpend
  have hrunning : (k₁.pool j).state = .running := by
    have hstands := hk₁.stands j
    rw [hstart] at hstands
    generalize (k₁.pool j).state = s at hstands
    cases hstands
    rfl
  have hdone :=
    slot_run (fun _ _ _ hsched hok h => step_scanning hsched hok h) hk₁.sched hscan hduring
      (⟨hrunning, hreq.only, .inl ⟨_, hstart, rfl⟩⟩ : Scanning (afterScan allSignos (k₁.pool j)) _)
  have hneed : (k₂.pool j).needStop = afterScan allSignos (k₁.pool j) := by
    rcases hdone.result with ⟨l, h, -⟩ | ⟨-, h⟩
    · rw [hend] at h
      cases h
    · exact h
  have hmem (n : Signo) (hn : n ≠ 0) : n ∈ allSignos := mem_allSignos.2 hn
  have hstop : (k₁.pool j).pending SIGSTOP = decide (signo = SIGSTOP) := hreq.stop signo hlast
  have hcont : (k₁.pool j).pending SIGCONT = true ↔
      ¬ ((k.pool j).pending SIGCONT = false ∧ SIGCONT ∉ sentTo j k as) := by
    rw [hreq.cont, not_and_or, Bool.not_eq_false, not_not]
  rw [hneed, afterScan]
  simp only [hmem SIGCONT (by decide), hmem SIGSTOP (by decide), and_true, hstop,
    decide_eq_true_eq]
  rcases hreq.requests signo (List.mem_of_getLast? hlast) with rfl | rfl
  · have hne : SIGSTOP ≠ SIGCONT := by decide
    simp only [if_true, hne, false_or]
    by_cases hpending : (k₁.pool j).pending SIGCONT = true
    · rw [if_pos hpending]
      exact iff_of_false (by decide) (hcont.1 hpending)
    · rw [if_neg hpending]
      exact iff_of_true rfl (not_not.1 (mt hcont.2 hpending))
  · have hpending : (k₁.pool j).pending SIGCONT = true :=
      hreq.cont.2 (.inr (List.mem_of_getLast? hlast))
    rw [if_pos hpending]
    exact iff_of_true (if_neg (by decide)).symm (.inl rfl)

/-- The child gets these requests in user mode and takes an interrupt; then it makes a scan. -/
def requestChild (signos : List Signo) : List Act :=
  enterUser 1 ++ signos.flatMap (fun signo => sendChild signo ++ .exec 0 :: leave 0) ++
    [.trap 1 .external .zero, .exec 1, .exec 1]

theorem last_request_wins_iff_stop :
    ∃ k, Reachable k ∧ (k.pool 1).needStop = 1 := by
  have hobs : ((run step (boot initMachine) forkChild).bind fun k =>
      (run step k (requestChild [SIGSTOP])).bind fun k₁ =>
      (run step k₁ (List.replicate 11 (.exec 1))).map fun k₂ =>
        decide ((∀ n, (k.pool 1).pending n = false) ∧
          Along step (BeforeScan 1) k (requestChild [SIGSTOP]) ∧
          sentTo 1 k (requestChild [SIGSTOP]) = [SIGSTOP] ∧
          (k₁.pool 1).context = .doSignal allSignos ∧
          Along step (DuringScan 1) k₁ (List.replicate 11 (.exec 1)) ∧
          (k₂.pool 1).context = .stillAliveAfterSignal)) = some true := by decide +kernel
  simp only [Option.bind_eq_some_iff, Option.map_eq_some_iff, decide_eq_true_eq] at hobs
  obtain ⟨k, hrun, k₁, hrun₁, k₂, hrun₂, hpend, hbefore, hsent, hstart, hduring, hend⟩ := hobs
  have hk : Reachable k := ⟨initMachine, _, hrun⟩
  have hiff :=
    last_request_wins_iff k k₁ k₂ 1 _ _ SIGSTOP hk (fun n hn => by rw [hpend] at hn; cases hn)
      hrun₁ hbefore (by rw [hsent]; rfl) hstart hrun₂ hduring hend
  rw [hsent] at hiff
  exact ⟨k₂, (hk.run hrun₁).run hrun₂, hiff.2 (.inr ⟨hpend _, by decide⟩)⟩

/-- A `SIGCONT` and then a `SIGSTOP` do not stop the child. -/
theorem last_stop_lost :
    ¬ ∀ (k k₁ k₂ : Kernel) (j : Slot) (as bs : List Act) (signo : Signo), Reachable k →
      ((k.pool j).state = .running ∨ (k.pool j).state = .runnable) →
      (∀ n, (k.pool j).pending n = true → n = SIGSTOP ∨ n = SIGCONT) → run step k as = some k₁ →
      Along step (BeforeScan j) k as → (sentTo j k as).getLast? = some signo →
      (k₁.pool j).context = .doSignal allSignos → run step k₁ bs = some k₂ →
      Along step (DuringScan j) k₁ bs → (k₂.pool j).context = .stillAliveAfterSignal →
      (k₂.pool j).needStop = if signo = SIGSTOP then 1 else 0 := by
  intro hall
  have hobs : ((run step (boot initMachine) forkChild).bind fun k =>
      (run step k (requestChild [SIGCONT, SIGSTOP])).bind fun k₁ =>
      (run step k₁ (List.replicate 11 (.exec 1))).map fun k₂ =>
        decide ((k.pool 1).state = .runnable ∧ (∀ n, (k.pool 1).pending n = false) ∧
          Along step (BeforeScan 1) k (requestChild [SIGCONT, SIGSTOP]) ∧
          (sentTo 1 k (requestChild [SIGCONT, SIGSTOP])).getLast? = some SIGSTOP ∧
          (k₁.pool 1).context = .doSignal allSignos ∧
          Along step (DuringScan 1) k₁ (List.replicate 11 (.exec 1)) ∧
          (k₂.pool 1).context = .stillAliveAfterSignal ∧ (k₂.pool 1).needStop = 0)) =
            some true := by
    decide +kernel
  simp only [Option.bind_eq_some_iff, Option.map_eq_some_iff, decide_eq_true_eq] at hobs
  obtain ⟨k, hrun, k₁, hrun₁, k₂, hrun₂, hstate, hpend, hbefore, hlast, hstart, hduring, hend,
      hneed⟩ :=
    hobs
  have hone := hall k k₁ k₂ 1 _ _ SIGSTOP ⟨initMachine, _, hrun⟩ (.inr hstate)
    (fun n hn => by rw [hpend] at hn; cases hn) hrun₁ hbefore hlast hstart hrun₂ hduring hend
  exact absurd (hneed.symm.trans hone) (by decide)

end SignalOS
