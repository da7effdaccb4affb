import SignalOS.Kernel.Tree

/-!
# No exit is missed by `wait`

A process that sleeps in `wait` sleeps on its own channel, and a child wakes it
before it becomes a zombie.  What keeps the two in step is `wait_lock`: `wait` holds
it from its search until it sleeps, and `exit` from the wake-up until the child is a
zombie.

* `Collectable` — the zombies that a `wait` looks for; `step_collectable` — how one
  comes about.
* `NoneMissed` — the invariant, with the place where a wake-up is still to come.
* `wait_misses_no_exit` — **no reachable state has a parent asleep in `wait` and a
  zombie it waits for**, unless an exit is in progress.
-/

namespace SignalOS

open Partial

variable {k k' : Kernel} {a : Act} {c : CpuId} {i j x : Slot} {p q : Proc}

/-! ## Ways into a place -/

theorem Own.to_sleep {b : Blocking} (h : Own k i p q) (hq : q.context = .sleep b) :
    ∃ b', p.context = .call b' ∧ b.lock = b'.lock := by
  cases h with
  | @goto context hmoves =>
    obtain rfl : context = .sleep b := hq
    generalize p.context = start at hmoves ⊢
    cases hmoves with
    | callSleep b' _ hlock => exact ⟨b', rfl, hlock⟩
  | @park state context hparks =>
    obtain rfl : context = .sleep b := hq
    cases hparks.holds
  | _ => cases hq

theorem Own.to_asleep {b : Blocking} (h : Own k i p q) (hp : p.state = .running)
    (hstate : q.state = .sleeping) (hq : q.context = .asleep b) : p.context = .sleep b := by
  cases h with
  | @park state context hparks =>
    obtain rfl : context = .asleep b := hq
    generalize p.context = start at hparks ⊢
    cases hparks
    rfl
  | @goto context hmoves => exact nomatch hp.symm.trans hstate
  | _ => cases hq

theorem Own.to_finish {code : Int} (h : Own k i p q) (hq : q.context = .finish code) :
    p.context = .wakeParent code := by
  cases h with
  | @goto context hmoves =>
    obtain rfl : context = .finish code := hq
    generalize p.context = start at hmoves ⊢
    cases hmoves
    rfl
  | @park state context hparks =>
    obtain rfl : context = .finish code := hq
    cases hparks.holds
  | _ => cases hq

/-- Only the process itself changes its channel. -/
theorem Upd.sleepChan_eq (h : Upd k a j p q) (hq : q.state ≠ .unused) :
    a.runner k = some j ∨ q.sleepChan = p.sleepChan := by
  cases h with
  | @receive signo code sender =>
    have hsignalled := signalled_receive p signo code sender
    rw [Signalled] at hsignalled
    exact .inr (by rw [hsignalled])
  | receiveKill =>
    refine .inr ?_
    rw [Proc.receiveKill, Proc.wakeFrom]
    split <;> rfl
  | free => exact absurd rfl hq
  | sleepChan hrun => exact .inl hrun
  | sigaction hrun => exact .inl hrun
  | _ => exact .inr rfl

/-- A process that sleeps in a call slept there before, or has just gone to sleep. -/
theorem step_asleep {b : Blocking} (hsched : Sched k) (h : step k a = some k')
    (hstate : (k'.pool i).state = .sleeping) (hctx : (k'.pool i).context = .asleep b) :
    ((k.pool i).state = .sleeping ∧ (k.pool i).context = .asleep b ∧
      (k'.pool i).sleepChan = (k.pool i).sleepChan) ∨
    (a.runner k = some i ∧ (k.pool i).context = .sleep b) := by
  have hinv := slot_step (I := fun p => p.state = .sleeping → p.context = .asleep b →
    ((k.pool i).state = .sleeping ∧ (k.pool i).context = .asleep b ∧
      (a.runner k = some i ∨ p.sleepChan = (k.pool i).sleepChan)) ∨
    (a.runner k = some i ∧ (k.pool i).context = .sleep b)) hsched h
    (fun p q hp hupd hs hq => ?_) (fun pid q _ hborn hs => ?_) (fun _ _ hs => by cases hs)
    (fun hrun p q _ hrunsAt hp hown hs hq => .inr ⟨hrun,
      hrunsAt.2.trans (hown.to_asleep hp hs hq)⟩)
    (fun hs hq => .inl ⟨hs, hq, .inr rfl⟩) hstate hctx
  · refine hinv.imp_left fun hasleep =>
      ⟨hasleep.1, hasleep.2.1, hasleep.2.2.resolve_left fun hrun => ?_⟩
    cases (hsched.runner hrun).symm.trans hasleep.1
  · have hused : q.state ≠ .unused := by simp [hs]
    rcases hupd.cases with hsame | ⟨-, rfl⟩
    · rcases hsame.state with heq | ⟨-, hwoken⟩
      · refine (hp (heq.symm.trans hs) (hsame.context.symm.trans hq)).imp_left ?_
        rintro ⟨hs₀, hq₀, hchan⟩
        exact ⟨hs₀, hq₀, (hupd.sleepChan_eq hused).elim .inl fun heq => hchan.imp_right heq.trans⟩
      · cases hwoken.symm.trans hs
    · cases hs
  · rcases hborn.cases with ⟨-, hrunnable⟩ | ⟨hunused, -⟩
    · cases hrunnable.symm.trans hs
    · cases hunused.symm.trans hs

/-! ## Zombies to collect -/

/-- The zombie in slot `j` is one that `wait(pid, code)` of the process in slot `i` looks for. -/
structure Collectable (pool : Slot → Proc) (i : Slot) (pid : Int) (j : Slot) : Prop where
  parent : (pool j).parent = some i
  zombie : (pool j).state = .zombie
  wanted : pid ≤ 0 ∨ (pool j).pid = pid

theorem waitChild_eq_none {pool : Slot → Proc} {pid : Int} (hi : (pool i).state ≠ .zombie) :
    waitChild pool i pid = none ↔ ∀ j, ¬ Collectable pool i pid j := by
  simp only [waitChild, List.find?_eq_none, List.mem_finRange, decide_eq_true_eq, forall_const]
  refine forall_congr' fun j => not_congr ⟨fun h => ⟨h.2.1, h.2.2.1, h.2.2.2⟩,
    fun h => ⟨?_, h.1, h.2, h.3⟩⟩
  rintro rfl
  exact hi h.zombie

/-- **How a zombie to collect comes about**: it was one, it is given to `init` by its parent, or
it has just exited. -/
theorem step_collectable {pid : Int} (hsched : Sched k) (h : step k a = some k')
    (hj : Collectable k'.pool i pid j) :
    Collectable k.pool i pid j ∨
    (∃ x code parentProc, a.runner k = some x ∧ (k.pool x).context = .reparent code parentProc ∧
      x ≠ j ∧ (k.pool j).parent = some x ∧ k.initProc = some i) ∨
    ∃ code, a.runner k = some j ∧ (k.pool j).context = .finish code ∧
      (k.pool j).parent = some i := by
  obtain ⟨hparent, hzombie, hwanted⟩ := hj
  rcases step_zombie hsched h hzombie with hold | hexits
  · cases step_fate hsched h j with
    | kept pid state parent =>
      exact .inl ⟨parent.symm.trans hparent, hold, hwanted.imp_right pid.symm.trans⟩
    | given x code parentProc hrun hctx hx pid state parent =>
      refine .inr (.inl ⟨x, code, parentProc, hrun, hctx, ?_, hx, parent.symm.trans hparent⟩)
      rintro rfl
      exact nomatch (hsched.runner hrun).symm.trans hold
    | freed _ state => exact nomatch state.symm.trans hzombie
    | forked _ _ _ hunused => exact nomatch hunused.symm.trans hold
    | unused hunused => exact nomatch hunused.symm.trans hold
    | loaded _ hunused => exact nomatch hunused.symm.trans hold
  · obtain ⟨hrun, ⟨code, hctx⟩, hstate, -⟩ := exits_cases hsched h hexits
    cases step_fate hsched h j with
    | kept pid state parent => exact .inr (.inr ⟨code, hrun, hctx, parent.symm.trans hparent⟩)
    | given x code' parentProc hrun' hctx' =>
      cases hrun.symm.trans hrun'
      exact nomatch hctx.symm.trans hctx'
    | freed _ state => exact nomatch state.symm.trans hzombie
    | forked _ _ _ hunused => cases hunused.symm.trans hstate
    | unused hunused => cases hunused.symm.trans hstate
    | loaded _ hunused => cases hunused.symm.trans hstate

/-! ## The invariant -/

/-- The process in slot `i` sleeps in `wait(pid, code)`. -/
def SleepsInWait (k : Kernel) (i : Slot) (pid : Int) (code : Uint64) : Prop :=
  (k.pool i).state = .sleeping ∧ (k.pool i).context = .asleep (.wait pid code)

/-- No process misses a zombie in `wait`: when it is about to sleep there is none, when it sleeps
there is none or `init` is about to be woken, and the parent of a process that is about to become
one does not sleep. -/
structure NoneMissed (k : Kernel) : Prop where
  awake : ∀ i pid code, (k.pool i).context = .sleep (.wait pid code) →
    ∀ j, ¬ Collectable k.pool i pid j
  channel : ∀ i pid code, SleepsInWait k i pid code → (k.pool i).sleepChan = some (.proc i)
  asleep : ∀ i pid code, SleepsInWait k i pid code → ∀ j, Collectable k.pool i pid j →
    k.initProc = some i ∧ ∃ x code, (k.pool x).context = .wakeInit code
  finish : ∀ x code i, (k.pool x).context = .finish code → (k.pool x).parent = some i →
    ∀ pid code, ¬ SleepsInWait k i pid code

/-- Two processes do not both stand where they hold the same lock. -/
theorem Sched.holder_unique {lk : SleepLock} (hsched : Sched k)
    (hi : (k.pool i).context.holds = some lk)
    (hj : k.locks lk = none ∨ k.locks lk = some j) : i = j := by
  have hlock := hsched.holder i lk hi
  rcases hj with hfree | hheld
  · exact nomatch hfree.symm.trans hlock
  · exact Option.some.inj (hlock.symm.trans hheld)

/-- A process that holds a lock stays where it is until its own next step. -/
theorem step_holder {lk : SleepLock} (hsched : Sched k) (h : step k a = some k')
    (hstands : Stands (k.pool x).state (k.pool x).context) (hrun : a.runner k ≠ some x)
    (hx : (k.pool x).context.holds = some lk) : (k'.pool x).context = (k.pool x).context := by
  have hrunning : (k.pool x).state = .running := by
    generalize (k.pool x).state = s, (k.pool x).context = context at hstands hx
    cases hstands <;> first | rfl | cases hx
  exact (step_other hsched h hrun hrunning).2

namespace NoneMissed

theorem step_awake (hI : NoneMissed k) (hsched : Sched k) (h : SignalOS.step k a = some k')
    {pid : Int} {code : Uint64} (hctx : (k'.pool i).context = .sleep (.wait pid code)) :
    ¬ Collectable k'.pool i pid j := by
  intro hj
  rcases step_context hsched h hctx nofun nofun with hold | ⟨hrun, p, q, hown, hp, -, hq⟩
  · -- the process holds `wait_lock` since its search
    have hholds : (k.pool i).context.holds = some .wait := by rw [hold]; rfl
    rcases step_collectable hsched h hj with hj | ⟨x, e, parentProc, hrun, hx, -⟩ | ⟨e,
      hrun, hx, -⟩
    · exact hI.awake i pid code hold j hj
    · obtain ⟨c, rfl, hcpu⟩ := exec_of_runner h hrun (by simp [hx])
      cases hsched.holder_unique hholds (step_reparent hcpu hx h).1
      exact nomatch hold.symm.trans hx
    · cases hsched.holder_unique hholds (.inr (hsched.holder j .wait (hx ▸ rfl)))
      exact nomatch hold.symm.trans hx
  · obtain ⟨b, hb, hlock⟩ := hown.to_sleep hq
    rw [hp] at hb
    obtain ⟨c, rfl, hcpu⟩ := exec_of_runner h hrun (by simp [hb])
    cases b with
    | wait pid' code' =>
      obtain ⟨-, hcase⟩ := step_wait hcpu hb h
      have hrunning := hsched.running c i hcpu
      cases hcase with
      | reaped child hfind hchild hself => exact nomatch (hself ▸ hctx)
      | failed hnone hfails hpool =>
        rw [hpool, Kernel.setProc_pool_self] at hctx
        cases hctx
      | sleeps hnone hkids hkilled hpool =>
        rw [hpool, Kernel.setProc_pool_self] at hctx
        cases hctx
        have hne : j ≠ i := by
          rintro rfl
          have hzombie := hj.zombie
          rw [hpool, Kernel.setProc_pool_self] at hzombie
          exact nomatch hrunning.symm.trans hzombie
        have hsame : k'.pool j = k.pool j := by rw [hpool, Kernel.setProc_pool_of_ne hne]
        refine (waitChild_eq_none (by simp [hrunning])).1 hnone j ⟨?_, ?_, ?_⟩
        · exact hsame ▸ hj.parent
        · exact hsame ▸ hj.zombie
        · exact hsame ▸ hj.wanted
    | sleep => cases hlock
    | read => cases hlock

theorem step_channel (hI : NoneMissed k) (hsched : Sched k) (h : SignalOS.step k a = some k')
    {pid : Int} {code : Uint64} (hsleeps : SleepsInWait k' i pid code) :
    (k'.pool i).sleepChan = some (.proc i) := by
  rcases step_asleep hsched h hsleeps.1 hsleeps.2 with ⟨hstate, hctx, hchan⟩ | ⟨hrun, hctx⟩
  · exact hchan.trans (hI.channel i pid code ⟨hstate, hctx⟩)
  · obtain ⟨c, rfl, hcpu⟩ := exec_of_runner h hrun (by simp [hctx])
    rw [step_sleep hcpu hctx h, Kernel.setProc_pool_self]
    rfl

theorem step_asleep (hI : NoneMissed k) (hk : Reachable k) (h : SignalOS.step k a = some k')
    {pid : Int} {code : Uint64} (hsleeps : SleepsInWait k' i pid code)
    (hj : Collectable k'.pool i pid j) :
    k'.initProc = some i ∧ ∃ x code, (k'.pool x).context = .wakeInit code := by
  have hsched := hk.sched
  have hsleepers := SignalOS.step_asleep hsched h hsleeps.1 hsleeps.2
  have hinit : k'.initProc = k.initProc := by
    refine step_initProc hsched h ?_
    rintro rfl
    have hempty := hk.tree.empty (step_loadInitApp h).1 i
    rcases hsleepers with ⟨hstate, -⟩ | ⟨hrun, -⟩
    · cases hempty.symm.trans hstate
    · cases hrun
  rcases hsleepers with ⟨hstate, hctx, -⟩ | ⟨hrun, hctx⟩
  · have hold : SleepsInWait k i pid code := ⟨hstate, hctx⟩
    rcases step_collectable hsched h hj with hj | ⟨x, e, parentProc, hrun, hx, hxj, hparent, hi⟩ |
      ⟨e, hrun, hx, hparent⟩
    · obtain ⟨hi, x, e, hx⟩ := hI.asleep i pid code hold j hj
      refine ⟨hinit.trans hi, x, e, ?_⟩
      by_cases hrun : a.runner k = some x
      · -- the wake-up has come
        obtain ⟨c, rfl, hcpu⟩ := exec_of_runner h hrun (by simp [hx])
        obtain ⟨-, hothers⟩ := step_wakeInit hsched hcpu hx h
        have hne : i ≠ x := by
          rintro rfl
          cases hctx.symm.trans hx
        have hwakes : (k.pool i).sleepsOn (k.initProc.map .proc) = true := by
          simp [Proc.sleepsOn, hstate, hI.channel i pid code hold, hi]
        have hwoken := hsleeps.1
        rw [hothers i hne, Proc.woken, if_pos hwakes] at hwoken
        cases hwoken
      · have hholds : (k.pool x).context.holds = some .wait := by rw [hx]; rfl
        exact (step_holder hsched h (hk.stands x) hrun hholds).trans hx
    · -- an exiting process has given the zombie to `init`
      obtain ⟨c, rfl, hcpu⟩ := exec_of_runner h hrun (by simp [hx])
      obtain ⟨-, hself, -⟩ := step_reparent hcpu hx h
      refine ⟨hinit.trans hi, x, e, ?_⟩
      rw [hself, afterReparent.eq_def, if_pos (haveKids_iff.2 ⟨j, hxj.symm, hparent⟩)]
    · exact absurd hold (hI.finish j e i hx hparent pid code)
  · obtain ⟨c, rfl, hcpu⟩ := exec_of_runner h hrun (by simp [hctx])
    have hpool := step_sleep hcpu hctx h
    have hne : j ≠ i := by
      rintro rfl
      cases hsleeps.1.symm.trans hj.zombie
    have hsame : k'.pool j = k.pool j := by rw [hpool, Kernel.setProc_pool_of_ne hne]
    have hmissed : Collectable k.pool i pid j :=
      ⟨hsame ▸ hj.parent, hsame ▸ hj.zombie, hsame ▸ hj.wanted⟩
    exact absurd hmissed (hI.awake i pid code hctx j)

theorem step_finish (hI : NoneMissed k) (hk : Reachable k) (h : SignalOS.step k a = some k')
    {pid : Int} {e : Int} {code : Uint64} (hx : (k'.pool x).context = .finish e)
    (hparent : (k'.pool x).parent = some i) : ¬ SleepsInWait k' i pid code := by
  intro hsleeps
  have hsched := hk.sched
  have hsleepers := SignalOS.step_asleep hsched h hsleeps.1 hsleeps.2
  rcases step_context hsched h hx nofun nofun with hold | ⟨hrun, p, q, hown, hp, -, hq⟩
  · have hholds : (k.pool x).context.holds = some .wait := hold ▸ rfl
    rcases hsleepers with ⟨hstate, hctx, -⟩ | ⟨-, hctx⟩
    · refine hI.finish x e i hold ?_ pid code ⟨hstate, hctx⟩
      have hstands := hk.stands x
      rw [hold] at hstands
      cases step_fate hsched h x with
      | kept pid state parent => exact parent.symm.trans hparent
      | given y e' parentProc hrun hy =>
        obtain ⟨c, rfl, hcpu⟩ := exec_of_runner h hrun (by simp [hy])
        cases hsched.holder_unique hholds (step_reparent hcpu hy h).1
        exact nomatch hold.symm.trans hy
      | freed _ _ parent => exact nomatch parent.symm.trans hparent
      | forked _ _ _ hunused =>
        rw [hunused] at hstands
        cases hstands
      | unused _ _ parent => exact nomatch parent.symm.trans hparent
      | loaded _ _ _ parent => exact nomatch parent.symm.trans hparent
    · cases hsched.holder_unique hholds (.inr (hsched.holder i .wait (hctx ▸ rfl)))
      exact nomatch hold.symm.trans hctx
  · -- the parent has just been woken
    have hctx : (k.pool x).context = .wakeParent e := hp.symm.trans (hown.to_finish hq)
    obtain ⟨c, rfl, hcpu⟩ := exec_of_runner h hrun (by simp [hctx])
    obtain ⟨-, hself, hothers⟩ := step_wakeParent hsched hcpu hctx h
    have hne : i ≠ x := by
      rintro rfl
      exact nomatch hx.symm.trans hsleeps.2
    rw [hself] at hparent
    have hparent : (k.pool x).parent = some i := hparent
    have hwakes : (k'.pool i).sleepsOn ((k.pool x).parent.map .proc) = true := by
      simp [Proc.sleepsOn, hsleeps.1, hI.step_channel hsched h hsleeps, hparent]
    rw [hothers i hne, Proc.not_sleepsOn_woken] at hwakes
    cases hwakes

theorem step (hI : NoneMissed k) (hk : Reachable k) (h : SignalOS.step k a = some k') :
    NoneMissed k' where
  awake _ _ _ hctx _ := hI.step_awake hk.sched h hctx
  channel _ _ _ hsleeps := hI.step_channel hk.sched h hsleeps
  asleep _ _ _ hsleeps _ hj := hI.step_asleep hk h hsleeps hj
  finish _ _ _ hx hparent _ _ := hI.step_finish hk h hx hparent

theorem boot (m : Machine) : NoneMissed (boot m) :=
  ⟨nofun, fun _ _ _ h => (nomatch h.1), fun _ _ _ h => (nomatch h.1), nofun⟩

end NoneMissed

theorem Reachable.noneMissed (h : Reachable k) : NoneMissed k := by
  obtain ⟨m, h⟩ := h
  have hinv := h.induct (I := fun k => Reachable k ∧ NoneMissed k)
    ⟨⟨m, .refl⟩, NoneMissed.boot m⟩ fun _ _ _ hI hstep => ⟨hI.1.step hstep, hI.2.step hI.1 hstep⟩
  exact hinv.2

/-- The process is in `exit`. -/
def InExit : Context → Prop
  | .exit _ | .reparent .. | .wakeInit _ | .notifyParent .. | .wakeParent _ | .finish _ => True
  | _ => False

/-- **No exit is missed by `wait`**: in no reachable state does a process sleep in `wait(pid,
code)`, on its own channel, while no exit is in progress and one of its children is a zombie it
waits for. -/
theorem wait_misses_no_exit (k : Kernel) (hk : Reachable k) :
    ¬ ∃ i pid code j, SleepsInWait k i pid code ∧ (∀ x, ¬ InExit (k.pool x).context) ∧
      (k.pool j).parent = some i ∧ (k.pool j).state = .zombie ∧
        (pid ≤ 0 ∨ (k.pool j).pid = pid) := by
  rintro ⟨i, pid, code, j, hsleeps, hquiet, hparent, hzombie, hwanted⟩
  obtain ⟨-, x, e, hx⟩ := hk.noneMissed.asleep i pid code hsleeps j ⟨hparent, hzombie, hwanted⟩
  exact hquiet x (hx ▸ trivial)

/-- `init` forks a child and sleeps in `wait(0, NULL)`; the child exits. -/
def exitDuringWait : List Act :=
  forkChild ++ ecall 0 (callRegs .wait 0 0 0) ++ [.exec 0, .exec 0] ++ exitChild

theorem wait_misses_no_exit_child :
    ∃ k, Reachable k ∧ (k.pool 1).state = .zombie ∧ (k.pool 1).parent = some 0 ∧
      ¬ ∃ i pid code j, SleepsInWait k i pid code ∧ (∀ x, ¬ InExit (k.pool x).context) ∧
        (k.pool j).parent = some i ∧ (k.pool j).state = .zombie ∧
        (pid ≤ 0 ∨ (k.pool j).pid = pid) := by
  have hobs : (Runs.run step (boot initMachine) exitDuringWait).map
      (fun k => decide ((k.pool 1).state = .zombie ∧ (k.pool 1).parent = some 0)) = some true := by
    decide +kernel
  simp only [Option.map_eq_some_iff, decide_eq_true_eq] at hobs
  obtain ⟨k, hrun, hzombie, hparent⟩ := hobs
  have hk : Reachable k := ⟨initMachine, exitDuringWait, hrun⟩
  exact ⟨k, hk, hzombie, hparent, wait_misses_no_exit k hk⟩

end SignalOS
