import SignalOS.Kernel.Exit
import SignalOS.Kernel.Pids

/-!
# The process tree

Who is whose parent, and who is collected by `wait`.

* `Fate` — what becomes of the pid and the parent of a slot in a step.
* `Tree` — the parent of every live process but `init` is a process that has not begun
  to leave; `Reachable.tree` — **in every reachable state**.
* `exits`, `waits` — the processes that have exited in a run, and those that `wait` has
  returned; `tree_and_waits` — **every exit is returned once**, to the parent or to `init`.
-/

namespace SignalOS

open Partial Runs

variable {k k' : Kernel} {a : Act} {c : CpuId} {i j x : Slot} {p q : Proc}

/-! ## What becomes of a slot -/

theorem takeSignal_parent {signo : Signo} (h : takeSignal signo p = .next q) :
    q.parent = p.parent := by
  have hcase := h ▸ takeSignal_cases signo p
  cases hcase with
  | cont => simp only [Proc.delPending, Proc.cancelStop]
  | _ => rfl

theorem Own.parent (h : Own k i p q) : q.parent = p.parent := by
  cases h with
  | turn hp hctx hturn =>
    have hparent := takeSignal_parent hturn
    exact hparent
  | _ => rfl

/-- An update keeps the parent, gives the process to `init`, or frees it. -/
theorem Upd.parent_cases (h : Upd k a j p q) :
    (SameProc p q ∧ q.parent = p.parent) ∨
    (∃ i code parentProc, a.runner k = some i ∧ (k.pool i).context = .reparent code parentProc ∧
      p.parent = some i ∧ q = { p with parent := k.initProc }) ∨
    (a.reaps k = some j ∧ p = k.pool j ∧ q = p.release) := by
  cases h with
  | reparent hrun hctx hparent => exact .inr (.inl ⟨_, _, _, hrun, hctx, hparent, rfl⟩)
  | free hreap hp => exact .inr (.inr ⟨hreap, hp, rfl⟩)
  | @receive signo code sender =>
    have hsignalled := signalled_receive p signo code sender
    rw [Signalled] at hsignalled
    exact .inl ⟨.receive p signo code sender, by rw [hsignalled]⟩
  | receiveKill =>
    refine .inl ⟨.receiveKill p, ?_⟩
    rw [Proc.receiveKill, Proc.wakeFrom]
    split <;> rfl
  | sigaction =>
    obtain ⟨sa, hsa⟩ := sysSigaction_proc _ p k.vm _ _ _
    exact .inl (hsa ▸ ⟨⟨rfl, rfl, rfl, .inl rfl, .inl rfl⟩, rfl⟩)
  | wakeup hsleeping => exact .inl ⟨⟨rfl, rfl, rfl, .inl rfl, .inr ⟨.inl hsleeping, rfl⟩⟩, rfl⟩
  | _ => exact .inl ⟨⟨rfl, rfl, rfl, .inl rfl, .inl rfl⟩, rfl⟩

/-- What becomes of the process in slot `j` in a step; `q` is the process afterwards. -/
inductive Fate (k : Kernel) (a : Act) (j : Slot) (q : Proc) : Prop
  | kept (pid : q.pid = (k.pool j).pid) (state : q.state = .unused ↔ (k.pool j).state = .unused)
      (parent : q.parent = (k.pool j).parent)
  | given (i : Slot) (code : Int) (parentProc : Option Slot) (hrun : a.runner k = some i)
      (hctx : (k.pool i).context = .reparent code parentProc) (hold : (k.pool j).parent = some i)
      (pid : q.pid = (k.pool j).pid) (state : q.state = .unused ↔ (k.pool j).state = .unused)
      (parent : q.parent = k.initProc)
  | freed (hreap : a.reaps k = some j) (state : q.state = .unused) (parent : q.parent = none)
  | forked (i : Slot) (hrun : a.runner k = some i) (hctx : (k.pool i).context = .syscall)
      (hunused : (k.pool j).state = .unused) (state : q.state ≠ .unused)
      (parent : q.parent = some i)
  | unused (hunused : (k.pool j).state = .unused) (state : q.state = .unused)
    (parent : q.parent = none)
  | loaded (ha : a = .loadInitApp) (hunused : (k.pool j).state = .unused)
    (state : q.state ≠ .unused)
      (parent : q.parent = none)

namespace Fate

/-- Nothing more happens to the pid, the parent and whether the slot is in use. -/
theorem of_same (h : Fate k a j p) (hpid : q.pid = p.pid)
    (hstate : q.state = .unused ↔ p.state = .unused) (hparent : q.parent = p.parent) :
    Fate k a j q := by
  cases h with
  | kept pid state parent =>
    exact .kept (hpid.trans pid) (hstate.trans state) (hparent.trans parent)
  | given i code parentProc hrun hctx hold pid state parent =>
    exact .given i code parentProc hrun hctx hold (hpid.trans pid) (hstate.trans state)
      (hparent.trans parent)
  | freed hreap state parent => exact .freed hreap (hstate.2 state) (hparent.trans parent)
  | forked i hrun hctx hunused state parent =>
    exact .forked i hrun hctx hunused (fun hq => state (hstate.1 hq)) (hparent.trans parent)
  | unused hunused state parent => exact .unused hunused (hstate.2 state) (hparent.trans parent)
  | loaded ha hunused state parent =>
    exact .loaded ha hunused (fun hq => state (hstate.1 hq)) (hparent.trans parent)

theorem upd (h : Fate k a j p) (hupd : Upd k a j p q) : Fate k a j q := by
  rcases hupd.parent_cases with ⟨hsame, hparent⟩ | ⟨i, code, parentProc, hrun, hctx, hi, rfl⟩ |
    ⟨hreap, rfl, rfl⟩
  · exact h.of_same hsame.pid hsame.unused_iff hparent
  · cases h with
    | kept pid state parent =>
      exact .given i code parentProc hrun hctx (parent.symm.trans hi) pid state rfl
    | given i' code' parentProc' hrun' hctx' hold pid state parent =>
      exact .given i' code' parentProc' hrun' hctx' hold pid state rfl
    | forked i' hrun' hctx' =>
      cases Option.some.inj (hrun.symm.trans hrun')
      exact nomatch hctx.symm.trans hctx'
    | freed hreap state parent => exact nomatch hi.symm.trans parent
    | unused hunused state parent => exact nomatch hi.symm.trans parent
    | loaded ha hunused state parent => exact nomatch hi.symm.trans parent
  · exact .freed hreap rfl rfl

theorem born {pid : Int} (hunused : (k.pool j).state = .unused) (h : Born k a pid (k.pool j) q) :
    Fate k a j q := by
  cases h with
  | fork hrun hctx => exact .forked _ hrun hctx hunused nofun rfl
  | failed => exact .unused hunused rfl rfl
  | init ha => exact .loaded ha hunused nofun rfl

end Fate

/-- **What becomes of a slot in a step.** -/
theorem step_fate (hsched : Sched k) (h : step k a = some k') (j : Slot) :
    Fate k a j (k'.pool j) := by
  refine slot_step (I := Fate k a j) hsched h (fun p q hp hupd => hp.upd hupd)
    (fun pid q hunused hborn => .born hunused hborn) (fun hp hrunnable => ?_)
    (fun _ p q hp hrun hstate hown => ?_) (.kept rfl Iff.rfl rfl)
  · exact hp.of_same rfl (iff_of_false nofun (by simp [hrunnable])) rfl
  · exact hp.of_same hown.pid (iff_of_false (hown.used hstate) (by simp [hstate])) hown.parent

/-! ## Processes that stay -/

/-- The process has begun to give its children away, or has done so. -/
def GivesAway : Context → Prop
  | .reparent .. | .wakeInit _ | .notifyParent .. | .wakeParent _ | .finish _ | .dead => True
  | _ => False

/-- The process has given its children away. -/
def GaveAway : Context → Prop
  | .wakeInit _ | .notifyParent .. | .wakeParent _ | .finish _ | .dead => True
  | _ => False

/-- The process can be a parent. -/
structure CanHold (p : Proc) : Prop where
  used : p.state ≠ .unused
  alive : p.state ≠ .zombie
  context : ¬ GaveAway p.context

theorem GivesAway.cases {context : Context} (h : GivesAway context) :
    (∃ code parentProc, context = .reparent code parentProc) ∨ GaveAway context := by
  cases context <;> first | exact .inr trivial | exact .inl ⟨_, _, rfl⟩ | cases h

theorem SameProc.canHold (h : SameProc p q) (hp : CanHold p) : CanHold q := by
  refine ⟨fun hq => hp.used (h.unused_iff.1 hq), fun hq => ?_, h.context ▸ hp.context⟩
  rcases h.state with heq | ⟨-, hwoken⟩
  · exact hp.alive (heq.symm.trans hq)
  · exact nomatch hwoken.symm.trans hq

theorem Upd.canHold (h : Upd k a j p q) (hp : CanHold p) : CanHold q := by
  rcases h.cases with hsame | ⟨hzombie, -⟩
  · exact hsame.canHold hp
  · exact absurd hzombie hp.alive

theorem Moves.gaveAway {context context' : Context} (h : Moves p context context')
    (hctx : ¬ GivesAway context) : ¬ GaveAway context' := by
  cases h <;> first | exact id | exact absurd trivial hctx

theorem Parks.gaveAway {context context' : Context} {state : ProcState}
    (h : Parks context state context') : state ≠ .zombie ∧ ¬ GaveAway context' := by
  cases h <;> exact ⟨nofun, id⟩

theorem Moves.stays {context context' : Context} (h : Moves p context context')
    (hctx : ¬ GivesAway context) (hexit : ∀ code, context ≠ .exit code) :
    ¬ GivesAway context' := by
  cases h <;> first | exact id | exact absurd trivial hctx | exact absurd rfl (hexit _)

theorem Parks.stays {context context' : Context} {state : ProcState}
    (h : Parks context state context') : ¬ GivesAway context' := by
  cases h <;> exact id

theorem Own.canHold (h : Own k i p q) (hstate : p.state = .running)
    (hctx : ¬ GivesAway p.context) :
    CanHold q := by
  have hrunning {s : ProcState} (hs : s = p.state) : s ≠ .zombie := by
    rw [hs, hstate]
    decide
  have hused := h.used hstate
  cases h with
  | goto hmoves => exact ⟨hused, hrunning rfl, hmoves.gaveAway hctx⟩
  | park hparks => exact ⟨hused, hparks.gaveAway.1, hparks.gaveAway.2⟩
  | die hfinish => exact absurd (hfinish ▸ trivial) hctx
  | trap => exact ⟨hused, hrunning rfl, id⟩
  | fault => exact ⟨hused, hrunning rfl, id⟩
  | turn _ _ hturn =>
    have hsame := takeSignal_state hstate hturn
    exact ⟨hused, hrunning hsame, id⟩
  | take => exact ⟨hused, hrunning rfl, id⟩
  | install => exact ⟨hused, hrunning rfl, id⟩

/-- A process begins to give its children away from the start of `exit`. -/
theorem Own.stays (h : Own k i p q) (hctx : ¬ GivesAway p.context)
    (hexit : ∀ code, p.context ≠ .exit code) :
    ¬ GivesAway q.context := by
  cases h with
  | goto hmoves => exact hmoves.stays hctx hexit
  | park hparks => exact hparks.stays
  | die hfinish => exact absurd (hfinish ▸ trivial) hctx
  | _ => exact id

/-- A process can be a parent until it has given its children away. -/
theorem step_canHold (hsched : Sched k) (h : step k a = some k') (hx : CanHold (k.pool x))
    (hctx : a.runner k = some x → ¬ GivesAway (k.pool x).context) : CanHold (k'.pool x) := by
  refine slot_step hsched h (fun p q hp hupd => hupd.canHold hp)
    (fun _ _ hunused => absurd hunused hx.used) (fun hp _ => ⟨nofun, nofun, hp.context⟩)
    (fun hrun p q _ hrunsAt hstate hown => hown.canHold hstate ?_) hx
  rw [← hrunsAt.2]
  exact hctx hrun

/-! ## Loading `init` -/

theorem step_initProc (hsched : Sched k) (h : step k a = some k') (ha : a ≠ .loadInitApp) :
    k'.initProc = k.initProc := by
  cases step_cases hsched h with
  | table hwithin => exact hwithin.initProc ha
  | fetch c j rest hcpu hqueue h => exact h ▸ rfl
  | skip c j hcpu hstate h => exact h ▸ rfl
  | switch c j hcpu hstate h => exact h ▸ rfl
  | own c i k1 p hcpu hrun hwithin hown pool pids cpus queues locks initProc =>
    exact initProc.trans (hwithin.initProc ha)

/-- `load_init_app` puts `init` into an unused slot. -/
theorem step_loadInitApp (h : step k .loadInitApp = some k') :
    k.initProc = none ∧ ∃ i, (k.pool i).state = .unused ∧ k'.initProc = some i ∧
      (k'.pool i).state = .runnable ∧ (k'.pool i).context = .firstSchedRet ∧
      (k'.pool i).parent = none ∧ ∀ j, j ≠ i → k'.pool j = k.pool j := by
  have hact := act_of_step h
  simp only [act, get_bind] at hact
  split at hact
  · rename_i hinit
    obtain ⟨i, img, eEntry, k₁, hunused, hframe, -, rfl⟩ := Within.loadInitApp_cases hact
    refine ⟨hinit, i, hunused, rfl, ?_⟩
    dsimp only
    rw [Kernel.pushQueue_pool, hframe.pool, Kernel.setProc_pool_self]
    exact ⟨rfl, rfl, rfl, fun j hj => Kernel.setProc_pool_of_ne hj _ _⟩
  · cases hact

/-! ## The tree -/

/-- The parent of every live process but `init` can hold it, unused slots have no parent, and
`init` stays. -/
structure Tree (k : Kernel) : Prop where
  parent : ∀ j, (k.pool j).state ≠ .unused → k.initProc ≠ some j →
    ∃ x, (k.pool j).parent = some x ∧ x ≠ j ∧ CanHold (k.pool x)
  orphan : ∀ j, (k.pool j).state = .unused → (k.pool j).parent = none
  init : ∀ i, k.initProc = some i →
    (k.pool i).parent = none ∧ CanHold (k.pool i) ∧ ¬ GivesAway (k.pool i).context
  empty : k.initProc = none → ∀ j, (k.pool j).state = .unused

namespace Tree

/-- There is `init` when a process runs. -/
theorem exists_init (ht : Tree k) (hj : (k.pool j).state ≠ .unused) :
    ∃ i, k.initProc = some i := by
  cases hinit : k.initProc with
  | none => exact absurd (ht.empty hinit j) hj
  | some i => exact ⟨i, rfl⟩

/-- `init` does not give its children away. -/
theorem step_init (ht : Tree k) (hsched : Sched k) (h : step k a = some k')
    (hi : k.initProc = some i) :
    CanHold (k'.pool i) ∧ ¬ GivesAway (k'.pool i).context := by
  obtain ⟨-, hhold, hstays⟩ := ht.init i hi
  refine ⟨step_canHold hsched h hhold fun _ => hstays, ?_⟩
  have hboth : CanHold (k'.pool i) ∧ ¬ GivesAway (k'.pool i).context := by
    refine slot_step (I := fun p => CanHold p ∧ ¬ GivesAway p.context) hsched h
      (fun p q hp hupd => ⟨hupd.canHold hp.1, ?_⟩) (fun _ _ hunused => absurd hunused hhold.used)
      (fun hp _ => ⟨⟨nofun, nofun, hp.1.context⟩, hp.2⟩)
        (fun hrun p q hp hrunsAt hstate hown => ?_)
      ⟨hhold, hstays⟩
    · rcases hupd.cases with hsame | ⟨hzombie, -⟩
      · exact hsame.context ▸ hp.2
      · exact absurd hzombie hp.1.alive
    · refine ⟨hown.canHold hstate hp.2, hown.stays hp.2 fun code hctx => ?_⟩
      -- `exit` panics
      obtain ⟨c, rfl, hcpu⟩ := exec_of_runner h hrun (by simp [hrunsAt.2, hctx])
      exact (step_exit hcpu (hrunsAt.2.trans hctx) h).1 hi
  exact hboth.2

/-- A process that gives its children away keeps none. -/
theorem not_reparenting (ht : Tree k) (h : SignalOS.step k a = some k')
    (hrun : a.runner k = some x) (hx : (k.pool j).parent = some x) (hxj : x ≠ j)
    (hhold : CanHold (k.pool x)) (hgives : GivesAway (k.pool x).context) :
    (k'.pool j).parent ≠ (k.pool j).parent := by
  intro hparent
  rcases hgives.cases with ⟨code, parentProc, hctx⟩ | hgave
  · obtain ⟨c, rfl, hcpu⟩ := exec_of_runner h hrun (by simp [hctx])
    obtain ⟨-, -, hothers⟩ := step_reparent hcpu hctx h
    have hnew : (k'.pool j).parent = k.initProc := by
      rw [hothers j hxj.symm, Proc.givenBy, if_pos hx]
    have hinit : k.initProc = some x := by rw [← hnew, hparent, hx]
    exact (ht.init x hinit).2.2 hgives
  · exact hhold.context hgave

/-- **Every step keeps the tree.** -/
theorem step (ht : Tree k) (hsched : Sched k) (h : SignalOS.step k a = some k') : Tree k' := by
  have hfate := step_fate hsched h
  by_cases ha : a = .loadInitApp
  · subst ha
    obtain ⟨hnone, i, hunused, hinit, hstate, hctx, hparent, hothers⟩ := step_loadInitApp h
    have hempty (j : Slot) (hj : j ≠ i) : (k'.pool j).state = .unused := by
      rw [hothers j hj]
      exact ht.empty hnone j
    refine ⟨fun j hj hne => ?_, fun j hj => ?_, fun i' hi' => ?_, fun hnone' => ?_⟩
    · refine absurd (hempty j ?_) hj
      rintro rfl
      exact hne hinit
    · by_cases hji : j = i
      · exact hji ▸ hparent
      · rw [hothers j hji] at hj ⊢
        exact ht.orphan j hj
    · cases hinit.symm.trans hi'
      refine ⟨hparent, ⟨?_, ?_, ?_⟩, ?_⟩ <;> simp [hstate, hctx, GaveAway, GivesAway]
    · exact nomatch hnone'.symm.trans hinit
  have hinit : k'.initProc = k.initProc := step_initProc hsched h ha
  have hempty (hnone : k.initProc = none) (i : Slot) : a.runner k ≠ some i := by
    intro hrun
    exact absurd (ht.empty hnone i) (by simp [hsched.runner hrun])
  refine ⟨fun j hj hne => ?_, fun j hj => ?_, fun i hi => ?_, fun hnone j => ?_⟩
  · cases hfate j with
    | kept pid state parent =>
      obtain ⟨x, hx, hxj, hhold⟩ := ht.parent j (fun hunused => hj (state.2 hunused)) (hinit ▸ hne)
      refine ⟨x, parent.trans hx, hxj, step_canHold hsched h hhold fun hrun hgives => ?_⟩
      exact ht.not_reparenting h hrun hx hxj hhold hgives parent
    | given i code parentProc hrun hctx hold pid state parent =>
      obtain ⟨y, hy⟩ := ht.exists_init (fun hunused => hj (state.2 hunused))
      refine ⟨y, parent.trans hy, ?_, (ht.step_init hsched h hy).1⟩
      rintro rfl
      exact hne (hinit.trans hy)
    | forked i hrun hctx hunused state parent =>
      have hrunning := hsched.runner hrun
      refine ⟨i, parent, ?_, step_canHold hsched h ⟨?_, ?_, ?_⟩ fun _ => ?_⟩
      · rintro rfl
        exact nomatch hrunning.symm.trans hunused
      all_goals simp [hrunning, hctx, GaveAway, GivesAway]
    | freed hreap state => exact absurd state hj
    | unused hunused state => exact absurd state hj
    | loaded hload => exact absurd hload ha
  · cases hfate j with
    | kept pid state parent => exact parent.trans (ht.orphan j (state.1 hj))
    | given i code parentProc hrun hctx hold pid state =>
      exact nomatch hold.symm.trans (ht.orphan j (state.1 hj))
    | forked i hrun hctx hunused state => exact absurd hj state
    | freed hreap state parent => exact parent
    | unused hunused state parent => exact parent
    | loaded hload => exact absurd hload ha
  · rw [hinit] at hi
    obtain ⟨hparent, hhold, -⟩ := ht.init i hi
    refine ⟨?_, ht.step_init hsched h hi⟩
    cases hfate i with
    | kept pid state parent => exact parent.trans hparent
    | given i' code parentProc hrun hctx hold => exact nomatch hold.symm.trans hparent
    | freed hreap => exact absurd (reaps_zombie hreap rfl).1 hhold.alive
    | forked i' hrun hctx hunused => exact absurd hunused hhold.used
    | unused hunused => exact absurd hunused hhold.used
    | loaded hload => exact absurd hload ha
  · rw [hinit] at hnone
    cases hfate j with
    | kept pid state => exact state.2 (ht.empty hnone j)
    | given i code parentProc hrun => exact absurd hrun (hempty hnone i)
    | forked i hrun => exact absurd hrun (hempty hnone i)
    | freed hreap state => exact state
    | unused hunused state => exact state
    | loaded hload => exact absurd hload ha

theorem boot (m : Machine) : Tree (boot m) :=
  ⟨fun _ h => absurd rfl h, fun _ _ => rfl, nofun, fun _ _ => rfl⟩

end Tree

theorem Reachable.tree (h : Reachable k) : Tree k := by
  obtain ⟨m, h⟩ := h
  have hinv := h.induct (I := fun k => Sched k ∧ Tree k) ⟨Sched.boot m, Tree.boot m⟩
    fun _ _ _ hI hstep => ⟨hI.1.step hstep, hI.2.step hI.1 hstep⟩
  exact hinv.2

/-! ## Exits and waits -/

/-- The process that a step makes a zombie. -/
def Act.exits (k : Kernel) : Act → Option Slot
  | .exec c => (Act.runner k (.exec c)).bind fun i =>
      match (k.pool i).context with
      | .finish _ => some i
      | _ => none
  | _ => none

/-- The pids of the processes that exit in a run, each with the pid of its parent. -/
def exits (k : Kernel) (as : List Act) : List (Int × Option Int) :=
  (trace step k as).filterMap fun t =>
    (t.2.exits t.1).map fun i =>
      ((t.1.pool i).pid, (t.1.pool i).parent.map fun x => (t.1.pool x).pid)

/-- The process whose `wait` returns a pid in a step, and the pid. -/
def waitReturns (k : Kernel) (a : Act) (k' : Kernel) : Option (Slot × Int) :=
  (a.runner k).bind fun i =>
    match (k.pool i).context with
    | .call (.wait ..) =>
      let r := toInt (k'.pool i).trapframe.a0
      if (k'.pool i).context = .stillAlive false ∧ r ≠ -ECHILD then some (i, r) else none
    | _ => none

/-- The pids that `wait` returns in a run. -/
def waits (k : Kernel) (as : List Act) : List Int :=
  (trace step k as).filterMap fun t =>
    (step t.1 t.2).bind fun k' => (waitReturns t.1 t.2 k').map Prod.snd

theorem toInt_ofInt_of_lt {n : Int} (hpos : 0 < n) (hlt : n < 2 ^ 31) : toInt (ofInt n) = n := by
  have hnat : ((n % ((2 ^ 64 : Nat) : Int)).toNat : Int) = n := by omega
  rw [toInt, ofInt, BitVec.toInt_setWidth, BitVec.toNat_ofInt, hnat]
  exact Int.bmod_eq_of_le (by omega) (by omega)

/-- A `wait` that returns a pid has freed the zombie that had it. -/
theorem waitReturns_reaps {r : Int} (hpids : PidsOk k.pool k.pids)
    (hmax : k.pids < 2 ^ 31) (h : step k a = some k') (hwait : waitReturns k a k' = some (i, r)) :
    ∃ child, (k.pool child).pid = r ∧ (k.pool child).parent = some i ∧
      (k.pool child).state = .zombie ∧ (k'.pool child).state = .unused := by
  obtain ⟨i', hrun, hret⟩ := Option.bind_eq_some_iff.1 hwait
  split at hret
  · rename_i pid code hctx
    obtain ⟨c, rfl, hcpu⟩ := exec_of_runner h hrun (by simp [hctx])
    dsimp only at hret
    split at hret
    · rename_i hreturns
      obtain ⟨hplace, hr⟩ := hreturns
      cases hret
      obtain ⟨-, hcase⟩ := step_wait hcpu hctx h
      cases hcase with
      | reaped child hfind hchild hself =>
        obtain ⟨-, hparent, hzombie, -⟩ := waitChild_spec hfind
        refine ⟨child, ?_, hparent, hzombie, by rw [hchild]; rfl⟩
        have hlive := hpids.live child (by simp [hzombie])
        rw [hself]
        exact (toInt_ofInt_of_lt hlive.1 (by omega)).symm
      | failed hnone hfails hpool =>
        rw [hpool, Kernel.setProc_pool_self] at hr
        exact absurd (by decide : toInt (ofInt (-ECHILD)) = -ECHILD) hr
      | sleeps hnone hkids hkilled hpool =>
        rw [hpool, Kernel.setProc_pool_self] at hplace
        cases hplace
    · cases hret
  · cases hret

/-- A process in use was in use before, or its pid is new. -/
theorem step_used (hsched : Sched k) (h : step k a = some k') (hmax : k'.pids < 2 ^ 31)
    (hj : (k'.pool j).state ≠ .unused) :
    ((k.pool j).state ≠ .unused ∧ (k'.pool j).pid = (k.pool j).pid) ∨
      k.pids < (k'.pool j).pid := by
  have hkept {p q : Proc} (hpq : SlotKept p q) (hp : p.state ≠ .unused →
      ((k.pool j).state ≠ .unused ∧ p.pid = (k.pool j).pid) ∨ k.pids < p.pid) :
      q.state ≠ .unused → ((k.pool j).state ≠ .unused ∧ q.pid = (k.pool j).pid) ∨
        k.pids < q.pid := by
    intro hq
    obtain ⟨hused, hpid⟩ := hpq.of_live hq
    rw [hpid]
    exact hp hused
  have hinv := table_step (I := fun pool pids => pids < 2 ^ 31 → k.pids ≤ pids ∧
      ((pool j).state ≠ .unused →
        ((k.pool j).state ≠ .unused ∧ (pool j).pid = (k.pool j).pid) ∨ k.pids < (pool j).pid))
    hsched h (fun k₁ k₂ hchange hI hmax => ?_) (fun i hstate hI hmax => ?_)
    (fun i k₁ p hrun hrunsAt hstate hown hI hmax => ?_)
      (fun _ => ⟨le_rfl, fun hj => .inl ⟨hj, rfl⟩⟩)
  · exact (hinv hmax).2 hj
  · cases hchange with
    | update pool pids =>
      rw [pids] at hmax ⊢
      obtain ⟨hle, hold⟩ := hI hmax
      refine ⟨hle, hkept ?_ hold⟩
      rcases pool j with hsame | hupd
      · exact hsame ▸ .refl _
      · exact hupd.kept
    | born i start hunused others born pids =>
      rw [pids] at hmax ⊢
      obtain ⟨hle, hold⟩ := hI (by omega)
      refine ⟨by omega, fun hj => ?_⟩
      by_cases hji : j = i
      · subst hji
        rcases born.cases with ⟨hpid, -⟩ | ⟨hfree, -⟩
        · rw [hpid, wrapInt_of_lt hmax]
          omega
        · exact absurd hfree hj
      · rw [others j hji] at hj ⊢
        exact hold hj
  · obtain ⟨hle, hold⟩ := hI hmax
    have hswitch : SlotKept (k.pool i) { k.pool i with state := .running } :=
      .inl ⟨rfl, iff_of_false nofun (by simp [hstate])⟩
    exact ⟨hle, hkept (hswitch.setProc j) hold⟩
  · obtain ⟨hle, hold⟩ := hI hmax
    exact ⟨hle, hkept ((hown.kept hstate).setProc j) hold⟩

/-- Only an exit makes a zombie. -/
theorem step_zombie (hsched : Sched k) (h : step k a = some k')
    (hj : (k'.pool j).state = .zombie) :
    (k.pool j).state = .zombie ∨ a.exits k = some j := by
  refine slot_step (I := fun p => p.state = .zombie → (k.pool j).state = .zombie ∨
    a.exits k = some j)
    hsched h (fun p q hp hupd hq => ?_) (fun pid q hunused hborn hq => ?_) (fun _ _ => nofun)
    (fun hrun p q hp hrunsAt hstate hown hq => ?_) .inl hj
  · rcases hupd.cases with hsame | ⟨-, rfl⟩
    · rcases hsame.state with heq | ⟨-, hwoken⟩
      · exact hp (heq.symm.trans hq)
      · exact nomatch hwoken.symm.trans hq
    · cases hq
  · rcases hborn.cases with ⟨-, hstate⟩ | ⟨hstate, -⟩ <;> exact nomatch hstate.symm.trans hq
  · cases hown with
    | die hctx =>
      obtain ⟨c, rfl, hcpu⟩ := exec_of_runner h hrun (by simp [hrunsAt.2, hctx])
      refine .inr ?_
      simp only [Act.exits, hrun, Option.bind_some, hrunsAt.2, hctx]
    | park hparks => exact absurd hq hparks.gaveAway.1
    | turn _ _ hturn =>
      have hsame := takeSignal_state hstate hturn
      exact nomatch (hsame.trans hstate).symm.trans hq
    | _ => exact nomatch hstate.symm.trans hq

/-- A zombie stays one until it is freed. -/
theorem zombie_step (hsched : Sched k) (h : step k a = some k') (hj : (k.pool j).state = .zombie)
    (hused : (k'.pool j).state ≠ .unused) : (k'.pool j).state = .zombie := by
  have hinv : (k'.pool j).state = .zombie ∨ (k'.pool j).state = .unused := by
    refine slot_step (I := fun p => p.state = .zombie ∨ p.state = .unused) hsched h
      (fun p q hp hupd => ?_) (fun _ _ hunused => nomatch hj.symm.trans hunused)
      (fun _ hrunnable => nomatch hj.symm.trans hrunnable)
      (fun _ p q hp _ hstate => ?_) (.inl hj)
    · rcases hupd.cases with hsame | ⟨-, rfl⟩
      · rcases hsame.state with heq | ⟨hasleep, -⟩
        · exact heq ▸ hp
        · rcases hp with hp | hp <;> rcases hasleep with hq | hq <;> exact nomatch hp.symm.trans hq
      · exact .inr rfl
    · rcases hp with hp | hp <;> exact nomatch hp.symm.trans hstate
  exact hinv.resolve_right hused

theorem exits_context (h : a.exits k = some i) :
    a.runner k = some i ∧ ∃ code, (k.pool i).context = .finish code := by
  cases a with
  | exec c =>
    obtain ⟨i', hrun, hexits⟩ := Option.bind_eq_some_iff.1 h
    split at hexits
    · rename_i code hctx
      cases hexits
      exact ⟨hrun, code, hctx⟩
    · cases hexits
  | _ => cases h

/-- The process that exits. -/
theorem exits_cases (hsched : Sched k) (h : step k a = some k') (hexits : a.exits k = some i) :
    a.runner k = some i ∧ (∃ code, (k.pool i).context = .finish code) ∧
      (k.pool i).state = .running ∧ (k'.pool i).state = .zombie := by
  obtain ⟨hrun, code, hctx⟩ := exits_context hexits
  obtain ⟨c, rfl, hcpu⟩ := exec_of_runner h hrun (by simp [hctx])
  refine ⟨hrun, ⟨code, hctx⟩, hsched.running c i hcpu, ?_⟩
  rw [step_finish hcpu hctx h, Kernel.setProc_pool_self]

/-- What the exits and waits of a run have left in the process table. -/
structure History (exits : List (Int × Option Int)) (waits : List Int) (k : Kernel) : Prop where
  exitsNodup : (exits.map Prod.fst).Nodup
  waitsNodup : waits.Nodup
  exited : ∀ e ∈ exits, e.1 ≤ k.pids ∧
    ∀ j, (k.pool j).state ≠ .unused → (k.pool j).pid = e.1 → (k.pool j).state = .zombie
  waited : ∀ r ∈ waits, r ≤ k.pids ∧ ∀ j, (k.pool j).state ≠ .unused → (k.pool j).pid ≠ r
  zombie : ∀ j, (k.pool j).state = .zombie → ∃ x ppid, (k.pool j).parent = some x ∧
    ((k.pool j).pid, some ppid) ∈ exits ∧ (ppid = (k.pool x).pid ∨ k.initProc = some x)

/-- A process that can be a parent keeps its pid. -/
theorem step_pid (hsched : Sched k) (h : step k a = some k') (hx : CanHold (k.pool x)) :
    (k'.pool x).pid = (k.pool x).pid := by
  cases step_fate hsched h x with
  | kept pid => exact pid
  | given i code parentProc hrun hctx hold pid => exact pid
  | freed hreap => exact absurd (reaps_zombie hreap rfl).1 hx.alive
  | forked i hrun hctx hunused => exact absurd hunused hx.used
  | unused hunused => exact absurd hunused hx.used
  | loaded ha hunused => exact absurd hunused hx.used

namespace History

variable {ex : List (Int × Option Int)} {ws : List Int}

/-- The parent of a zombie, with the record of its exit. -/
theorem step_old_zombie (hI : History ex ws k) (ht : Tree k) (hsched : Sched k)
    (h : SignalOS.step k a = some k') (hj : (k.pool j).state = .zombie)
    (hj' : (k'.pool j).state ≠ .unused) :
    ∃ x ppid, (k'.pool j).parent = some x ∧ ((k'.pool j).pid, some ppid) ∈ ex ∧
      (ppid = (k'.pool x).pid ∨ k'.initProc = some x) := by
  obtain ⟨x, ppid, hx, hmem, hppid⟩ := hI.zombie j hj
  have hinit : k'.initProc = k.initProc := by
    refine step_initProc hsched h ?_
    rintro rfl
    exact nomatch hj.symm.trans (ht.empty (step_loadInitApp h).1 j)
  have hne : k.initProc ≠ some j := fun heq => (ht.init j heq).2.1.alive hj
  obtain ⟨x', hx', -, hhold⟩ := ht.parent j (by simp [hj]) hne
  cases hx.symm.trans hx'
  cases step_fate hsched h j with
  | kept pid state parent =>
    refine ⟨x, ppid, parent.trans hx, pid ▸ hmem, hppid.imp (fun heq => ?_) hinit.trans⟩
    rw [step_pid hsched h hhold, heq]
  | given i code parentProc hrun hctx hold pid state parent =>
    obtain ⟨y, hy⟩ := ht.exists_init (j := j) (by simp [hj])
    exact ⟨y, ppid, parent.trans hy, pid ▸ hmem, .inr (hinit.trans hy)⟩
  | freed hreap state => exact absurd state hj'
  | forked i hrun hctx hunused => exact nomatch hj.symm.trans hunused
  | unused hunused => exact nomatch hj.symm.trans hunused
  | loaded ha hunused => exact nomatch hj.symm.trans hunused

/-- The parent of a process that has just exited. -/
theorem step_new_zombie (ht : Tree k) (hsched : Sched k) (h : SignalOS.step k a = some k')
    (hexits : a.exits k = some j) :
    ∃ x, (k.pool j).parent = some x ∧ (k'.pool j).parent = some x ∧
      (k'.pool j).pid = (k.pool j).pid ∧ (k'.pool x).pid = (k.pool x).pid := by
  obtain ⟨hrun, ⟨code, hctx⟩, hstate, hzombie⟩ := exits_cases hsched h hexits
  have hne : k.initProc ≠ some j := by
    intro heq
    exact (ht.init j heq).2.2 (hctx ▸ trivial)
  obtain ⟨x, hx, -, hhold⟩ := ht.parent j (by simp [hstate]) hne
  refine ⟨x, hx, ?_, ?_, step_pid hsched h hhold⟩
  all_goals cases step_fate hsched h j with
  | kept pid state parent => first | exact parent.trans hx | exact pid
  | given i code' parentProc hrun' hctx' =>
    cases hrun.symm.trans hrun'
    exact nomatch hctx.symm.trans hctx'
  | freed hreap state => exact nomatch hzombie.symm.trans state
  | forked i hrun' hctx' hunused => exact nomatch hstate.symm.trans hunused
  | unused hunused => exact nomatch hstate.symm.trans hunused
  | loaded ha hunused => exact nomatch hstate.symm.trans hunused

/-- What holds of all processes that had a pid before still holds of those that have it. -/
theorem of_pid {r : Int} (hsched : Sched k) (h : SignalOS.step k a = some k')
    (hmax : k'.pids < 2 ^ 31)
    (hr : r ≤ k.pids) (hj : (k'.pool j).state ≠ .unused) (hpid : (k'.pool j).pid = r) :
    (k.pool j).state ≠ .unused ∧ (k.pool j).pid = r := by
  rcases step_used hsched h hmax hj with ⟨hused, hsame⟩ | hnew
  · exact ⟨hused, hsame.symm.trans hpid⟩
  · omega

/-- **Every step keeps the history.** -/
theorem step (hI : History ex ws k) (ht : Tree k) (hsched : Sched k) (hpids : PidsOk k.pool k.pids)
    (hmax : k'.pids < 2 ^ 31) (h : SignalOS.step k a = some k') :
    History
      (ex ++ ((a.exits k).map fun i =>
        ((k.pool i).pid, (k.pool i).parent.map fun x => (k.pool x).pid)).toList)
      (ws ++ ((waitReturns k a k').map Prod.snd).toList) k' := by
  have hle := step_pids hsched h
  have hexit (i : Slot) (hexits : a.exits k = some i) : (k.pool i).state ≠ .unused := by
    simp [(exits_cases hsched h hexits).2.2.1]
  refine ⟨?_, ?_, ?_, ?_, ?_⟩
  · cases hexits : a.exits k with
    | none => simpa using hI.exitsNodup
    | some i =>
      simp only [Option.map_some, Option.toList_some, List.map_append, List.map_cons, List.map_nil]
      refine hI.exitsNodup.append (List.nodup_singleton _) fun pid hmem hnew => ?_
      rw [List.mem_singleton] at hnew
      obtain ⟨e, he, hpid⟩ := List.mem_map.1 hmem
      have hzombie := (hI.exited e he).2 i (hexit i hexits) (hnew.symm.trans hpid.symm)
      exact nomatch hzombie.symm.trans (exits_cases hsched h hexits).2.2.1
  · cases hwait : waitReturns k a k' with
    | none => simpa using hI.waitsNodup
    | some w =>
      obtain ⟨i, r⟩ := w
      obtain ⟨child, hpid, -, hzombie, -⟩ := waitReturns_reaps hpids (by omega) h hwait
      simp only [Option.map_some, Option.toList_some]
      refine hI.waitsNodup.append (List.nodup_singleton _) fun r' hmem hnew => ?_
      rw [List.mem_singleton] at hnew
      exact (hI.waited r' hmem).2 child (by simp [hzombie]) (hpid.trans hnew.symm)
  · intro e he
    rw [List.mem_append] at he
    rcases he with hold | hnew
    · obtain ⟨hmem, hzombies⟩ := hI.exited e hold
      refine ⟨by omega, fun j hj hpid => ?_⟩
      obtain ⟨hused, hpid⟩ := of_pid hsched h hmax hmem hj hpid
      exact zombie_step hsched h (hzombies j hused hpid) hj
    · rw [Option.mem_toList, Option.map_eq_some_iff] at hnew
      obtain ⟨i, hexits, rfl⟩ := hnew
      have hi := (hpids.live i (hexit i hexits)).2
      refine ⟨by dsimp only; omega, fun j hj hpid => ?_⟩
      obtain ⟨hused, hpid⟩ := of_pid hsched h hmax hi hj hpid
      rw [hpids.inj j i hused (hexit i hexits) hpid]
      exact (exits_cases hsched h hexits).2.2.2
  · intro r hr
    rw [List.mem_append] at hr
    rcases hr with hold | hnew
    · obtain ⟨hmem, hgone⟩ := hI.waited r hold
      refine ⟨by omega, fun j hj hpid => ?_⟩
      obtain ⟨hused, hpid⟩ := of_pid hsched h hmax hmem hj hpid
      exact hgone j hused hpid
    · rw [Option.mem_toList, Option.map_eq_some_iff] at hnew
      obtain ⟨⟨i, r'⟩, hwait, rfl⟩ := hnew
      obtain ⟨child, hchild, -, hzombie, hfreed⟩ := waitReturns_reaps hpids (by omega) h hwait
      have hlive := (hpids.live child (by simp [hzombie])).2
      dsimp only
      refine ⟨by omega, fun j hj hpid => ?_⟩
      obtain ⟨hused, hpid⟩ := of_pid hsched h hmax (hchild ▸ hlive) hj hpid
      cases hpids.inj j child hused (by simp [hzombie]) (hpid.trans hchild.symm)
      exact hj hfreed
  · intro j hj
    rcases step_zombie hsched h hj with hold | hexits
    · obtain ⟨x, ppid, hparent, hmem, hppid⟩ := hI.step_old_zombie ht hsched h hold (by simp [hj])
      exact ⟨x, ppid, hparent, List.mem_append_left _ hmem, hppid⟩
    · obtain ⟨x, hx, hparent, hpid, hppid⟩ := step_new_zombie ht hsched h hexits
      refine ⟨x, (k.pool x).pid, hparent, List.mem_append_right _ ?_, .inl hppid.symm⟩
      simp [hexits, hx, hpid]

end History

theorem run_history {m : Machine} {as : List Act} (hrun : run step (boot m) as = some k)
    (hmax : k.pids < 2 ^ 31) : History (exits (boot m) as) (waits (boot m) as) k := by
  have hboot : History (exits (boot m) []) (waits (boot m) []) (boot m) :=
    ⟨.nil, .nil, nofun, nofun, nofun⟩
  refine run_induct_history
    (I := fun as k => k.pids < 2 ^ 31 → History (exits (boot m) as) (waits (boot m) as) k)
    (fun as k a k' hrun hI _ hstep hmax => ?_) (fun _ => hboot) hrun along_true hmax
  have hk : Reachable k := ⟨m, as, hrun⟩
  have hle := step_pids hk.sched hstep
  have hnext := (hI (by omega)).step hk.tree hk.sched (hk.pidsOk (by omega)) hmax hstep
  rw [exits, waits, filterMap_trace_concat _ hrun, filterMap_trace_concat _ hrun]
  simp only [hstep, Option.bind_some]
  exact hnext

/-- **The process tree and its exits.**  In every state of a run the parent of every live process
but `init` is a process that is neither unused nor a zombie; no two exits have the same pid; and a
`wait` that returns a pid frees the zombie that has it, a child of the caller, and returns the pid
of an earlier exit that no `wait` has returned before: of a child of the caller, or of a process
that was given to `init`, the caller. -/
theorem tree_and_waits (m : Machine) (as : List Act) (k : Kernel)
    (hrun : run step (boot m) as = some k)
    (hmax : k.pids < 2 ^ 31) :
    (∀ j, (k.pool j).state ≠ .unused → k.initProc ≠ some j →
      ∃ x, (k.pool j).parent = some x ∧ (k.pool x).state ≠ .unused ∧ (k.pool x).state ≠ .zombie) ∧
    ((exits (boot m) as).map Prod.fst).Nodup ∧ (waits (boot m) as).Nodup ∧
    ∀ a k' i r, step k a = some k' → waitReturns k a k' = some (i, r) →
      r ∉ waits (boot m) as ∧ (∃ ppid, (r, some ppid) ∈ exits (boot m) as ∧
        (ppid = (k.pool i).pid ∨ k.initProc = some i)) ∧
      ∃ child, (k.pool child).pid = r ∧ (k.pool child).parent = some i ∧
        (k.pool child).state = .zombie ∧ (k'.pool child).state = .unused := by
  have hk : Reachable k := ⟨m, as, hrun⟩
  have hI := run_history hrun hmax
  refine ⟨fun j hj hne => ?_, hI.exitsNodup, hI.waitsNodup, fun a k' i r hstep hwait => ?_⟩
  · obtain ⟨x, hx, -, hhold⟩ := hk.tree.parent j hj hne
    exact ⟨x, hx, hhold.used, hhold.alive⟩
  · obtain ⟨child, hpid, hparent, hzombie, hfreed⟩ :=
      waitReturns_reaps (hk.pidsOk hmax) hmax hstep hwait
    obtain ⟨x, ppid, hx, hmem, hppid⟩ := hI.zombie child hzombie
    cases hparent.symm.trans hx
    refine ⟨fun hr => ?_, ⟨ppid, hpid ▸ hmem, hppid⟩, child, hpid, hparent, hzombie, hfreed⟩
    exact (hI.waited r hr).2 child (by simp [hzombie]) hpid

/-- `init` calls `wait(0, NULL)` after the exit of its child. -/
def waitForChild : List Act := forkChild ++ exitChild ++ ecall 0 (callRegs .wait 0 0 0)

theorem tree_and_waits_child :
    ∃ k k', run step (boot initMachine) waitForChild = some k ∧ step k (.exec 0) = some k' ∧
      waitReturns k (.exec 0) k' = some (0, 2) ∧ 2 ∉ waits (boot initMachine) waitForChild ∧
      (∃ ppid, (2, some ppid) ∈ exits (boot initMachine) waitForChild ∧
        (ppid = (k.pool 0).pid ∨ k.initProc = some 0)) ∧
      ∃ child, (k.pool child).pid = 2 ∧ (k.pool child).parent = some 0 ∧
        (k.pool child).state = .zombie ∧ (k'.pool child).state = .unused := by
  have hobs : ((run step (boot initMachine) waitForChild).bind fun k =>
    (step k (.exec 0)).map fun k' =>
      decide (k.pids < 2 ^ 31 ∧ waitReturns k (.exec 0) k' = some (0, 2))) = some true := by
    decide +kernel
  simp only [Option.bind_eq_some_iff, Option.map_eq_some_iff, decide_eq_true_eq] at hobs
  obtain ⟨k, hrun, k', hstep, hmax, hwait⟩ := hobs
  exact ⟨k, k', hrun, hstep, hwait,
    (tree_and_waits initMachine waitForChild k hrun hmax).2.2.2 (.exec 0) k' 0 2 hstep hwait⟩

end SignalOS
