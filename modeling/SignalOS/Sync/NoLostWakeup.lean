import Mathlib.Data.Fintype.Basic
import SignalOS.Lib.LockTable
import SignalOS.Sync.Sleep

/-!
# No wakeup is lost

* `Moves` — what a step can do, one case for each line of the code.
* `Inv` — the invariant: who holds each lock, which CPU runs each process, and that a process is
  committed to a channel only in front of a `wakeup` of the channel, with a condition that is false
  or owed a `wakeup`; `Moves.inv` — every step keeps it.
* `no_lost_wakeup` — **in every run** a process that sleeps has a condition that is false or is
  about to be woken, a process that was woken is queued and runs on one CPU at a time, and
  who holds a lock can go on, or waits for the lock of a process whose holder can.
-/

namespace SignalOS.Sleep

open Function (update)
open LockTable

/-! ## What the positions say -/

section Positions

variable {n : Nat} {W L Ch : Type}

/-- The channel on which a process sleeps for the reason. -/
def Reason.chan : Reason Ch → Option Ch
  | .asleep ch => some ch
  | .yielded | .stopped => none

theorem Reason.state_ne_running (r : Reason Ch) : r.state ≠ .running := by
  cases r <;> simp [Reason.state]

theorem Reason.state_eq_sleeping (r : Reason Ch) : r.state = .sleeping ↔ r.chan.isSome := by
  cases r <;> simp [Reason.state, Reason.chan]

/-- The lock that a thread holds. -/
def Pc.lock (lockOf : Ch → L) : Pc n L Ch → Option L
  | .locked l => some l
  | .scan lk _ _ | .check lk _ _ | .checked lk _ _ => lk
  | .sleepLock ch | .sleepUnlock ch => some (lockOf ch)
  | _ => none

/-- The process whose lock a thread holds. -/
def Pc.plock (t : Thread n W) (q : Pc n L Ch) : Option (Fin n) :=
  match t, q with
  | _, .check _ _ p | _, .checked _ _ p | _, .sending p _ | _, .sent p => some p
  | .process p, .sleepUnlock _ | .process p, .setChan _ | .process p, .setState _ | .process p,
    .switch _
  | .process p, .back _ | .process p, .cleared _ => some p
  | _, _ => none

def CpuPc.plock : CpuPc n → Option (Fin n)
  | .chosen p | .returned p | .leaving p => some p
  | _ => none

/-- The process that a CPU is to run, or to put into the queue. -/
def CpuPc.takes : CpuPc n → Option (Fin n)
  | .fetched p | .chosen p | .returned p => some p
  | _ => none

/-- Only processes get here. -/
def Pc.ofProcess : Pc n L Ch → Bool
  | .sleepLock _ | .sleepUnlock _ | .setChan _ | .giveUp _ | .setState _ | .switch _ | .away
    _ | .back _
  | .cleared _ | .relock _ => true
  | _ => false

def Pc.isAway : Pc n L Ch → Bool
  | .away _ => true
  | _ => false

/-- The states in which a process can be there. -/
def Pc.allows (q : Pc n L Ch) (st : ProcState) : Prop :=
  match q with
  | .switch r => st = r.state
  | .away r => st ≠ .running ∧ (st = .sleeping → r.chan.isSome)
  | _ => st = .running

/-- The channel that `sleep` has put into `sleep_chan`. -/
def Pc.sleepChan : Pc n L Ch → Option Ch
  | .setState r | .switch r | .away r | .back r => r.chan
  | _ => none

/-- The channel of the call of `sleep` that a process is in. -/
def Pc.calls : Pc n L Ch → Option Ch
  | .sleepLock ch | .sleepUnlock ch | .setChan ch | .cleared ch => some ch
  | q => q.sleepChan

/-- The channel on which a process sleeps, or will do so before it releases its lock. -/
def Pc.committed (q : Pc n L Ch) (st : ProcState) : Option Ch :=
  match q with
  | .setChan ch => some ch
  | .setState r | .switch r => r.chan
  | .away r => if st = .sleeping then r.chan else none
  | _ => none

/-- Before the lock of its channel is released. -/
def Pc.closing : Pc n L Ch → Option Ch
  | .sleepLock ch | .sleepUnlock ch => some ch
  | _ => none

/-- A call of `wakeup(ch)` under the lock of `ch` is past the slot of `p`. -/
def Pc.past (lockOf : Ch → L) (ch : Ch) (p : Fin n) : Pc n L Ch → Prop
  | .scan lk ch' i => lk = some (lockOf ch) ∧ ch' = ch ∧ p.val < i
  | .check lk ch' q => lk = some (lockOf ch) ∧ ch' = ch ∧ p < q
  | .checked lk ch' q => lk = some (lockOf ch) ∧ ch' = ch ∧ p ≤ q
  | _ => False

theorem Pc.lock_of_past {lockOf : Ch → L} {ch : Ch} {p : Fin n} {q : Pc n L Ch}
    (h : q.past lockOf ch p) :
    q.lock lockOf = some (lockOf ch) := by
  cases q <;> simp_all [Pc.past, Pc.lock]

end Positions

variable {n : Nat} {C W L Ch K D : Type} [DecidableEq C] [DecidableEq W] [DecidableEq L]
  [DecidableEq Ch]

/-- The process lock that each agent holds. -/
def heldBy (pc : Thread n W → Pc n L Ch) (cpu : C → CpuPc n) : Agent n C W → Option (Fin n)
  | .thread t => (pc t).plock t
  | .scheduler c => (cpu c).plock

omit [DecidableEq L] [DecidableEq Ch] in
theorem heldBy_pc (pc : Thread n W → Pc n L Ch) (cpu : C → CpuPc n) (t : Thread n W)
    (q : Pc n L Ch) :
    heldBy (update pc t q) cpu = update (heldBy pc cpu) (.thread t) (q.plock t) := by
  funext a
  cases a with
  | thread t' =>
    by_cases ht : t' = t
    · subst ht
      simp [heldBy]
    · simp [heldBy, ht]
  | scheduler c => simp [heldBy]

omit [DecidableEq L] [DecidableEq Ch] in
theorem heldBy_cpu (pc : Thread n W → Pc n L Ch) (cpu : C → CpuPc n) (c : C) (x : CpuPc n) :
    heldBy pc (update cpu c x) = update (heldBy pc cpu) (.scheduler c) x.plock := by
  funext a
  cases a with
  | thread t => simp [heldBy]
  | scheduler c' =>
    by_cases hc : c' = c
    · subst hc
      simp [heldBy]
    · simp [heldBy, hc]

omit [DecidableEq L] [DecidableEq Ch] in
theorem lock_pc (lockOf : Ch → L) (pc : Thread n W → Pc n L Ch) (t : Thread n W) (q : Pc n L Ch) :
    (fun t' => (update pc t q t').lock lockOf) = update (fun t' => (pc t').lock lockOf) t
      (q.lock lockOf) :=
  Function.comp_update (Pc.lock lockOf) pc t q

variable {lockOf : Ch → L} {holds : K → D → Bool} {s s' : State n C W L Ch K D}

/-- **What a step can do.** -/
inductive Moves (lockOf : Ch → L) (holds : K → D → Bool) (s : State n C W L Ch K D) :
    State n C W L Ch K D → Prop
  | acquire (t l) (h : s.pc t = .running) :
    Moves lockOf holds s { s with pc := update s.pc t (.acquiring l) }
  | wakeup (t ch) (h : s.pc t = .running) :
    Moves lockOf holds s { s with pc := update s.pc t (.scan none ch 0) }
  | send (t p cont) (h : s.pc t = .running) :
    Moves lockOf holds s { s with pc := update s.pc t (.send p cont) }
  | giveUp (p stop) (h : s.pc (.process p) = .running) :
    Moves lockOf holds s { s with pc := update s.pc (.process p) (.giveUp stop) }
  | take (t l) (h : s.pc t = .acquiring l) (hfree : s.owner l = none) :
    Moves lockOf holds s
      { s with owner := update s.owner l (some t), pc := update s.pc t (.locked l) }
  | relock (p ch) (h : s.pc (.process p) = .relock ch) (hfree : s.owner (lockOf ch) = none) :
    Moves lockOf holds s { s with
      owner := update s.owner (lockOf ch) (some (.process p))
      pc := update s.pc (.process p) (.locked (lockOf ch)) }
  | release (t l) (h : s.pc t = .locked l) (hpaid : ∀ ch, lockOf ch = l → s.owed ch = false) :
    Moves lockOf holds s { s with
      owner := update s.owner l none
      owed := fun ch => if lockOf ch = l then false else s.owed ch
      done := fun ch => if lockOf ch = l then false else s.done ch
      pc := update s.pc t .running }
  | change (t l d) (h : s.pc t = .locked l) : Moves lockOf holds s (s.change lockOf holds l d)
  | wakeupLocked (t l ch) (h : s.pc t = .locked l) :
    Moves lockOf holds s { s with pc := update s.pc t (.scan (some l) ch 0) }
  | sleep (p ch k) (h : s.pc (.process p) = .locked (lockOf ch))
    (hcond : holds k (s.data (lockOf ch)) = false)
    (hpaid : ∀ ch', lockOf ch' = lockOf ch → s.owed ch' = false) :
    Moves lockOf holds s { s with
      want := update s.want p (some (ch, k))
      pc := update s.pc (.process p) (.sleepLock ch) }
  | scan (t lk ch p) (h : s.pc t = .scan lk ch p.val) (hfree : s.plock p = none) :
    Moves lockOf holds s { s with
      plock := update s.plock p (some (.thread t))
      pc := update s.pc t (.check lk ch p) }
  | finish (t ch i) (h : s.pc t = .scan (some (lockOf ch)) ch i) (hi : n ≤ i) :
    Moves lockOf holds s { s with
      owed := update s.owed ch false
      done := update s.done ch true
      pc := update s.pc t (.locked (lockOf ch)) }
  | finishFree (t ch i) (h : s.pc t = .scan none ch i) :
    Moves lockOf holds s { s with pc := update s.pc t .running }
  | finishOther (t l ch i) (h : s.pc t = .scan (some l) ch i) (hlk : l ≠ lockOf ch) :
    Moves lockOf holds s { s with pc := update s.pc t (.locked l) }
  | wake (t lk ch p) (h : s.pc t = .check lk ch p) (hstate : s.state p = .sleeping)
    (hchan : s.sleepChan p = some ch) :
    Moves lockOf holds s { s with
      state := update s.state p .runnable
      taskQueue := s.taskQueue ++ [p]
      pc := update s.pc t (.checked lk ch p) }
  | pass (t lk ch p) (h : s.pc t = .check lk ch p) (hnot : s.state p = .sleeping →
    s.sleepChan p ≠ some ch) :
    Moves lockOf holds s { s with pc := update s.pc t (.checked lk ch p) }
  | checked (t lk ch p) (h : s.pc t = .checked lk ch p) :
    Moves lockOf holds s { s with
      plock := update s.plock p none
      pc := update s.pc t (.scan lk ch (p + 1)) }
  | sendLock (t p cont) (h : s.pc t = .send p cont) (hfree : s.plock p = none) :
    Moves lockOf holds s { s with
      plock := update s.plock p (some (.thread t))
      pc := update s.pc t (.sending p cont) }
  | signal (t p cont) (h : s.pc t = .sending p cont) (hstate : s.state p = .sleeping ∨
    s.state p = .stopped) :
    Moves lockOf holds s { s with
      state := update s.state p .runnable
      taskQueue := s.taskQueue ++ [p]
      pc := update s.pc t (.sent p) }
  | miss (t p cont) (h : s.pc t = .sending p cont) :
    Moves lockOf holds s { s with pc := update s.pc t (.sent p) }
  | sent (t p) (h : s.pc t = .sent p) :
    Moves lockOf holds s { s with plock := update s.plock p none, pc := update s.pc t .running }
  | sleepLock (p ch) (h : s.pc (.process p) = .sleepLock ch) (hfree : s.plock p = none) :
    Moves lockOf holds s { s with
      plock := update s.plock p (some (.thread (.process p)))
      pc := update s.pc (.process p) (.sleepUnlock ch) }
  | sleepUnlock (p ch) (h : s.pc (.process p) = .sleepUnlock ch) :
    Moves lockOf holds s { s with
      owner := update s.owner (lockOf ch) none
      owed := fun ch' => if lockOf ch' = lockOf ch then false else s.owed ch'
      done := fun ch' => if lockOf ch' = lockOf ch then false else s.done ch'
      pc := update s.pc (.process p) (.setChan ch) }
  | setChan (p ch) (h : s.pc (.process p) = .setChan ch) :
    Moves lockOf holds s { s with
      sleepChan := update s.sleepChan p (some ch)
      pc := update s.pc (.process p) (.setState (.asleep ch)) }
  | giveUpLock (p stop r) (h : s.pc (.process p) = .giveUp stop) (hr : r.chan = none)
    (hfree : s.plock p = none) :
    Moves lockOf holds s { s with
      plock := update s.plock p (some (.thread (.process p)))
      pc := update s.pc (.process p) (.setState r) }
  | setState (p r) (h : s.pc (.process p) = .setState r) :
    Moves lockOf holds s { s with
      state := update s.state p r.state
      pc := update s.pc (.process p) (.switch r) }
  | wakeUp (p r ch) (h : s.pc (.process p) = .back r) (hr : r.chan = some ch) :
    Moves lockOf holds s { s with
      sleepChan := update s.sleepChan p none
      pc := update s.pc (.process p) (.cleared ch) }
  | goOn (p r) (h : s.pc (.process p) = .back r) (hr : r.chan = none) :
    Moves lockOf holds s
      { s with plock := update s.plock p none, pc := update s.pc (.process p) .running }
  | cleared (p ch) (h : s.pc (.process p) = .cleared ch) :
    Moves lockOf holds s { s with
      plock := update s.plock p none
      want := update s.want p none
      pc := update s.pc (.process p) (.relock ch) }
  | fetch (c p rest) (h : s.cpu c = .idle) (hqueue : s.taskQueue = p :: rest) :
    Moves lockOf holds s { s with taskQueue := rest, cpu := update s.cpu c (.fetched p) }
  | choose (c p) (h : s.cpu c = .fetched p) (hfree : s.plock p = none) :
    Moves lockOf holds s
      { s with plock := update s.plock p (some (.scheduler c)), cpu := update s.cpu c (.chosen p) }
  | resume (c p r) (h : s.cpu c = .chosen p) (hstate : s.state p = .runnable)
    (hpc : s.pc (.process p) = .away r) :
    Moves lockOf holds s { s with
      plock := update s.plock p (some (.thread (.process p)))
      state := update s.state p .running
      cpu := update s.cpu c (.running p)
      pc := update s.pc (.process p) (.back r) }
  | skip (c p) (h : s.cpu c = .chosen p) (hstate : s.state p ≠ .runnable) :
    Moves lockOf holds s { s with cpu := update s.cpu c (.leaving p) }
  | swtch (c p r) (h : s.cpu c = .running p) (hpc : s.pc (.process p) = .switch r) :
    Moves lockOf holds s { s with
      plock := update s.plock p (some (.scheduler c))
      cpu := update s.cpu c (.returned p)
      pc := update s.pc (.process p) (.away r) }
  | requeue (c p) (h : s.cpu c = .returned p) :
    Moves lockOf holds s { s with
      taskQueue := if s.state p = .runnable then s.taskQueue ++ [p] else s.taskQueue
      cpu := update s.cpu c (.leaving p) }
  | leave (c p) (h : s.cpu c = .leaving p) :
    Moves lockOf holds s { s with plock := update s.plock p none, cpu := update s.cpu c .idle }

theorem moves_of_next {t : Thread n W} (h : s.next lockOf t = some s') :
    Moves lockOf holds s s' := by
  simp only [State.next, State.goto, State.take, State.drop, State.lockProc, State.unlockProc,
    State.wake, State.finish] at h
  split at h
  case h_2 t lk ch i _ =>
    by_cases hlk : lk = some (lockOf ch)
    · grind [Moves]
    · cases lk <;> grind [Moves]
  case h_6 t p cont _ => cases cont <;> grind [Moves]
  case h_11 p stop _ => cases stop <;> grind [Moves, Reason.chan]
  case h_14 p r hr _ => cases r <;> grind [Moves, Reason.chan]
  all_goals grind [Moves, Reason.chan]

theorem moves_of_run {t : Thread n W} {op : Op n L Ch K D} (hok : Ok lockOf holds s (.thread t op))
    (h : s.run lockOf holds t op = some s') : Moves lockOf holds s s' := by
  cases op with
  | next => exact moves_of_next h
  | sleep ch k => cases t <;> grind [State.run, State.goto, Ok, Moves]
  | yield => cases t <;> grind [State.run, State.goto, Moves, Reason.chan]
  | stop => cases t <;> grind [State.run, State.goto, Moves, Reason.chan]
  | _ => grind [State.run, State.goto, State.drop, Ok, Moves]

theorem moves_of_schedule {c : C} (h : s.schedule c = some s') : Moves lockOf holds s s' := by
  grind [State.schedule, State.goto, State.lockProc, State.unlockProc, Moves]

theorem moves_of_step {a : Act n C W L Ch K D} (hok : Ok lockOf holds s a)
    (h : step lockOf holds s a = some s') :
    Moves lockOf holds s s' := by
  cases a with
  | thread t op => exact moves_of_run hok h
  | scheduler c => exact moves_of_schedule h

/-- **The invariant.** -/
structure Inv (lockOf : Ch → L) (holds : K → D → Bool) (s : State n C W L Ch K D) : Prop where
  /-- The locks name the threads that hold them. -/
  owner : Exact s.owner fun t => (s.pc t).lock lockOf
  plock : Exact s.plock (heldBy s.pc s.cpu)
  /-- A process is switched away, or one CPU runs it. -/
  unique : ∀ c c' p, s.cpu c = .running p → s.cpu c' = .running p → c = c'
  running : ∀ c p, s.cpu c = .running p → (s.pc (.process p)).isAway = false
  onCpu : ∀ p, (s.pc (.process p)).isAway = false → ∃ c, s.cpu c = .running p
  returned : ∀ c p, s.cpu c = .returned p → (s.pc (.process p)).isAway = true
  ofProcess : ∀ w, (s.pc (.interrupt w)).ofProcess = false
  state : ∀ p, (s.pc (.process p)).allows (s.state p)
  queued : ∀ p, s.state p = .runnable → p ∈ s.taskQueue ∨ (s.pc (.process p)).isAway = false ∨
    ∃ c, (s.cpu c).takes = some p
  sleepChan : ∀ p ch, (s.pc (.process p)).sleepChan = some ch → s.sleepChan p = some ch
  calls : ∀ p ch, (s.pc (.process p)).calls = some ch → ∃ k, s.want p = some (ch, k)
  closing : ∀ p ch, (s.pc (.process p)).closing = some ch → ∀ ch', lockOf ch' = lockOf ch →
    s.owed ch' = false
  /-- The condition of a process that sleeps is false, or somebody still has to wake it. -/
  tested : ∀ p ch k, (s.pc (.process p)).closing = some ch ∨ (s.pc (.process p)).committed
    (s.state p) = some ch →
    s.want p = some (ch, k) → holds k (s.data (lockOf ch)) = false ∨ s.owed ch = true
  /-- No process sleeps on a channel behind a `wakeup` of the channel. -/
  past : ∀ p ch, (s.pc (.process p)).committed (s.state p) = some ch → s.done ch = false ∧
    ∀ t, ¬ (s.pc t).past lockOf ch p
  owed : ∀ ch, s.owed ch = true → s.owner (lockOf ch) ≠ none

section Found

omit [DecidableEq C] [DecidableEq W] [DecidableEq L] [DecidableEq Ch]

variable {t : Thread n W} {p : Fin n} {ch : Ch} {a : Agent n C W}

/-- A process that does not run and whose lock another agent holds has been switched away. -/
theorem Inv.away (hI : Inv lockOf holds s) (hheld : heldBy s.pc s.cpu a = some p)
    (hne : a ≠ .thread (.process p))
    (hstate : s.state p ≠ .running) : ∃ r, s.pc (.process p) = .away r := by
  have hallows := hI.state p
  cases hpc : s.pc (.process p) with
  | away r => exact ⟨r, rfl⟩
  | switch r =>
    have hself : heldBy s.pc s.cpu (.thread (.process p)) = some p := by
      simp only [heldBy, hpc, Pc.plock]
    exact absurd (hI.plock.holder_unique hheld hself) hne
  | _ =>
    rw [hpc] at hallows
    exact absurd hallows hstate

/-- So has one that a waker or a signal finds asleep or stopped. -/
theorem Inv.found (hI : Inv lockOf holds s) (hheld : heldBy s.pc s.cpu (.thread t) = some p)
    (hpc : (s.pc t).ofProcess = false)
    (hstate : s.state p ≠ .running) : t ≠ .process p ∧ ∃ r, s.pc (.process p) = .away r := by
  have hne : t ≠ .process p := by
    rintro rfl
    have hallows := hI.state p
    cases h : s.pc (.process p) <;> simp_all [Pc.ofProcess, Pc.allows]
  exact ⟨hne, hI.away hheld (fun heq => hne (Agent.thread.inj heq)) hstate⟩

/-- A process that is to sleep holds its lock until it sleeps. -/
theorem Inv.asleep (hI : Inv lockOf holds s) (hheld : heldBy s.pc s.cpu a = some p)
    (hne : a ≠ .thread (.process p))
    (hcommitted : (s.pc (.process p)).committed (s.state p) = some ch) :
    s.state p = .sleeping ∧ s.sleepChan p = some ch := by
  have hself (hown : heldBy s.pc s.cpu (.thread (.process p)) = some p) : False :=
    hne (hI.plock.holder_unique hheld hown)
  cases hpc : s.pc (.process p) with
  | setChan _ | setState _ | switch _ => exact (hself (by simp only [heldBy, hpc, Pc.plock])).elim
  | away r =>
    rw [hpc, Pc.committed] at hcommitted
    split at hcommitted
    · exact ⟨‹_›, hI.sleepChan p ch (by rw [hpc]; exact hcommitted)⟩
    · cases hcommitted
  | _ =>
    rw [hpc] at hcommitted
    cases hcommitted

end Found

namespace Moves

/-! ## Locks -/

theorem owner (hI : Inv lockOf holds s) (h : Moves lockOf holds s s') :
    Exact s'.owner fun t => (s'.pc t).lock lockOf := by
  have hkeep {t : Thread n W} {q : Pc n L Ch} (hq : q.lock lockOf = (s.pc t).lock lockOf) :
      Exact s.owner fun t' => (update s.pc t q t').lock lockOf := by
    rw [lock_pc, hq, Function.update_eq_self t fun t' => (s.pc t').lock lockOf]
    exact hI.owner
  have htake {t : Thread n W} {q : Pc n L Ch} {l : L} (hfree : s.owner l = none)
    (hnone : (s.pc t).lock lockOf = none)
      (hq : q.lock lockOf = some l) :
      Exact (update s.owner l (some t)) fun t' => (update s.pc t q t').lock lockOf := by
    rw [lock_pc, hq]
    exact hI.owner.take hfree hnone
  have hdrop {t : Thread n W} {q : Pc n L Ch} {l : L} (hl : (s.pc t).lock lockOf = some l)
    (hq : q.lock lockOf = none) :
      Exact (update s.owner l none) fun t' => (update s.pc t q t').lock lockOf := by
    rw [lock_pc, hq]
    exact hI.owner.drop hl
  cases h with
  | take t l h hfree => exact htake hfree (by rw [h]; rfl) rfl
  | relock p ch h hfree => exact htake hfree (by rw [h]; rfl) rfl
  | release t l h => exact hdrop (by rw [h]; rfl) rfl
  | sleepUnlock p ch h => exact hdrop (by rw [h]; rfl) rfl
  | resume c p r h hstate hpc => exact hkeep (by rw [hpc]; rfl)
  | swtch c p r h hpc => exact hkeep (by rw [hpc]; rfl)
  | change | fetch | choose | skip | requeue | leave => exact hI.owner
  | _ => exact hkeep (by simp only [*, Pc.lock])

theorem plock (hI : Inv lockOf holds s) (h : Moves lockOf holds s s') :
    Exact s'.plock (heldBy s'.pc s'.cpu) := by
  have hkeep {t : Thread n W} {q : Pc n L Ch} (hq : q.plock t = (s.pc t).plock t) :
      Exact s.plock (heldBy (update s.pc t q) s.cpu) := by
    rw [heldBy_pc, hq]
    exact (Function.update_eq_self (Agent.thread t) (heldBy s.pc s.cpu)).symm ▸ hI.plock
  have htake {t : Thread n W} {q : Pc n L Ch} {p : Fin n} (hfree : s.plock p = none)
    (hnone : (s.pc t).plock t = none)
      (hq : q.plock t = some p) : Exact (update s.plock p (some (.thread t)))
      (heldBy (update s.pc t q) s.cpu) := by
    rw [heldBy_pc, hq]
    exact hI.plock.take hfree hnone
  have hdrop {t : Thread n W} {q : Pc n L Ch} {p : Fin n} (hp : (s.pc t).plock t = some p)
    (hq : q.plock t = none) :
      Exact (update s.plock p none) (heldBy (update s.pc t q) s.cpu) := by
    rw [heldBy_pc, hq]
    exact hI.plock.drop hp
  have hcpu {c : C} {x : CpuPc n} (hx : x.plock = (s.cpu c).plock) :
      Exact s.plock (heldBy s.pc (update s.cpu c x)) := by
    rw [heldBy_cpu, hx]
    exact (Function.update_eq_self (Agent.scheduler c) (heldBy s.pc s.cpu)).symm ▸ hI.plock
  cases h with
  | scan t lk ch p h hfree => exact htake hfree (by rw [h]; rfl) rfl
  | sendLock t p cont h hfree => exact htake hfree (by rw [h]; rfl) rfl
  | sleepLock p ch h hfree => exact htake hfree (by rw [h]; rfl) rfl
  | giveUpLock p stop r h hr hfree => exact htake hfree (by rw [h]; rfl) rfl
  | checked t lk ch p h => exact hdrop (by rw [h]; rfl) rfl
  | sent t p h => exact hdrop (by rw [h]; rfl) rfl
  | goOn p r h => exact hdrop (by rw [h]; rfl) rfl
  | cleared p ch h => exact hdrop (by rw [h]; rfl) rfl
  | choose c p h hfree =>
    rw [heldBy_cpu]
    exact hI.plock.take hfree (show (s.cpu c).plock = none by rw [h]; rfl)
  | leave c p h =>
    rw [heldBy_cpu]
    exact hI.plock.drop (show (s.cpu c).plock = some p by rw [h]; rfl)
  | resume c p r h hstate hpc =>
    rw [heldBy_pc, heldBy_cpu]
    exact hI.plock.handOver (show (s.cpu c).plock = some p by rw [h]; rfl)
      (show (s.pc (.process p)).plock (.process p) = none by rw [hpc]; rfl)
  | swtch c p r h hpc =>
    rw [heldBy_pc, heldBy_cpu, Function.update_comm (by simp)]
    exact hI.plock.handOver (show (s.pc (.process p)).plock (.process p) = some p by rw [hpc]; rfl)
      (show (s.cpu c).plock = none by rw [h]; rfl)
  | change => exact hI.plock
  | fetch c p rest h => exact hcpu (by rw [h]; rfl)
  | skip c p h => exact hcpu (by rw [h]; rfl)
  | requeue c p h => exact hcpu (by rw [h]; rfl)
  | finish t ch i h => exact hkeep (by rw [h]; rfl)
  | _ => exact hkeep (by simp only [*]; rfl)

/-! ## Positions -/

theorem unique (hI : Inv lockOf holds s) (h : Moves lockOf holds s s') (c c' : C) (p : Fin n)
    (hc : s'.cpu c = .running p) (hc' : s'.cpu c' = .running p) : c = c' := by
  have hunique := hI.unique
  have hrunning := hI.running
  cases h <;> dsimp only [State.change] at hc hc' <;> grind [Function.update_apply, Pc.isAway]

theorem running (hI : Inv lockOf holds s) (h : Moves lockOf holds s s') (c : C) (p : Fin n)
    (hc : s'.cpu c = .running p) : (s'.pc (.process p)).isAway = false := by
  have hrunning := hI.running
  have hunique := hI.unique
  cases h <;> dsimp only [State.change] at hc ⊢ <;> grind [Function.update_apply, Pc.isAway]

theorem onCpu (hI : Inv lockOf holds s) (h : Moves lockOf holds s s') (p : Fin n)
    (hp : (s'.pc (.process p)).isAway = false) : ∃ c, s'.cpu c = .running p := by
  have hold : (s.pc (.process p)).isAway = false ∨ ∃ c, s'.cpu c = .running p := by
    cases h with
    | resume c q r hc hstate hpc =>
      by_cases hpq : p = q
      · exact .inr ⟨c, by rw [hpq]; exact Function.update_self _ _ _⟩
      · grind [Function.update_apply]
    | _ => left; dsimp only [State.change] at hp; grind [Function.update_apply, Pc.isAway]
  rcases hold with hold | hc
  · obtain ⟨c, hc⟩ := hI.onCpu p hold
    refine ⟨c, ?_⟩
    cases h <;> dsimp only [State.change] at hp ⊢ <;> grind [Function.update_apply, Pc.isAway]
  · exact hc

theorem returned (hI : Inv lockOf holds s) (h : Moves lockOf holds s s') (c : C) (p : Fin n)
    (hc : s'.cpu c = .returned p) : (s'.pc (.process p)).isAway = true := by
  have hreturned := hI.returned
  cases h with
  | resume c' q r hc' hstate hpc =>
    -- its lock is held by the other scheduler
    have hheld : heldBy s.pc s.cpu (.scheduler c') = some q := by
      simp only [heldBy, hc', CpuPc.plock]
    have hother (hcc : s.cpu c = .returned q) : c = c' := by
      have hheld' : heldBy s.pc s.cpu (.scheduler c) = some q := by
        simp only [heldBy, hcc, CpuPc.plock]
      exact Agent.scheduler.inj (hI.plock.holder_unique hheld' hheld)
    grind [Function.update_apply]
  | _ => dsimp only [State.change] at hc ⊢; grind [Function.update_apply, Pc.isAway]

theorem ofProcess (hI : Inv lockOf holds s) (h : Moves lockOf holds s s') (w : W) :
    (s'.pc (.interrupt w)).ofProcess = false := by
  have hold := hI.ofProcess w
  cases h <;> dsimp only [State.change] <;> grind [Function.update_apply, Pc.ofProcess]

/-! ## Processes -/

theorem state (hI : Inv lockOf holds s) (h : Moves lockOf holds s s') (q : Fin n) :
    (s'.pc (.process q)).allows (s'.state q) := by
  have hq := hI.state q
  cases h with
  | wake t lk ch p h hstate hchan =>
    have hheld : heldBy s.pc s.cpu (.thread t) = some p := by simp only [heldBy, h, Pc.plock]
    obtain ⟨hne, r, hr⟩ := hI.found hheld (by rw [h]; rfl) (by simp [hstate])
    grind [Function.update_apply, Pc.allows]
  | signal t p cont h hstate =>
    have hheld : heldBy s.pc s.cpu (.thread t) = some p := by simp only [heldBy, h, Pc.plock]
    obtain ⟨hne, r, hr⟩ :=
      hI.found hheld (by rw [h]; rfl) (by rcases hstate with h | h <;> simp [h])
    grind [Function.update_apply, Pc.allows]
  | _ =>
    dsimp only [State.change]
    grind [Function.update_apply, Pc.allows, Reason.state_ne_running, Reason.state_eq_sleeping]

theorem queued (hI : Inv lockOf holds s) (h : Moves lockOf holds s s') (p : Fin n)
    (hp : s'.state p = .runnable) :
    p ∈ s'.taskQueue ∨ (s'.pc (.process p)).isAway = false ∨ ∃ c, (s'.cpu c).takes = some p := by
  by_cases hbefore : s.state p = .runnable
  · rcases hI.queued p hbefore with hqueue | haway | ⟨c', hc'⟩
    · cases h with
      | fetch c q rest h hhead =>
        rw [hhead, List.mem_cons] at hqueue
        rcases hqueue with rfl | hrest
        · exact .inr (.inr ⟨c, by simp [CpuPc.takes]⟩)
        · exact .inl hrest
      | _ => left; dsimp only [State.change]; grind
    · cases h with
      | swtch c q r h hpc =>
        by_cases hpq : p = q
        · exact .inr (.inr ⟨c, by simp [CpuPc.takes, hpq]⟩)
        · exact .inr (.inl (by simpa [hpq] using haway))
      | _ => right; left; dsimp only [State.change]; grind [Function.update_apply, Pc.isAway]
    · cases h with
      | requeue c q h =>
        by_cases hpq : p = q
        · subst hpq
          exact .inl (by simp [hbefore])
        · exact .inr (.inr ⟨c', by grind [Function.update_apply, CpuPc.takes]⟩)
      | _ =>
        refine .inr (.inr ⟨c', ?_⟩)
        dsimp only [State.change] at hp ⊢
        grind [Function.update_apply, CpuPc.takes]
  · cases h <;> dsimp only [State.change] at hp ⊢ <;> grind [Function.update_apply, Pc.isAway]

theorem sleepChan (hI : Inv lockOf holds s) (h : Moves lockOf holds s s') (p : Fin n) (ch : Ch)
    (hp : (s'.pc (.process p)).sleepChan = some ch) : s'.sleepChan p = some ch := by
  have hold := hI.sleepChan p
  cases h <;> dsimp only [State.change] at hp ⊢ <;> grind [Function.update_apply, Pc.sleepChan,
    Reason.chan]

theorem calls (hI : Inv lockOf holds s) (h : Moves lockOf holds s s') (p : Fin n) (ch : Ch)
    (hp : (s'.pc (.process p)).calls = some ch) : ∃ k, s'.want p = some (ch, k) := by
  have hold := hI.calls p
  cases h with
  | sleep q ch' k h hcond hpaid =>
    by_cases hpq : p = q
    · subst hpq
      have hch : ch' = ch := by simpa [Pc.calls] using hp
      exact ⟨k, by simp [hch]⟩
    · grind [Function.update_apply]
  | _ =>
    dsimp only [State.change] at hp ⊢
    grind [Function.update_apply, Pc.calls, Pc.sleepChan, Reason.chan]

omit [DecidableEq C] [DecidableEq W] in
/-- What a change makes owed. -/
theorem owed_change {l : L} {d : D} {ch : Ch} : (s.change lockOf holds l d).owed ch = true ↔
    s.owed ch = true ∨
    lockOf ch = l ∧ s.done ch = false ∧
      ∃ p k, s.want p = some (ch, k) ∧ holds k (s.data l) = false ∧ holds k d = true := by
  simp only [State.change, Bool.or_eq_true, Bool.and_eq_true, decide_eq_true_eq, Bool.not_eq_true',
    and_assoc,
    Option.any_eq_true, Prod.exists]
  constructor
  · rintro (h | ⟨hlk, hdone, p, ch', k, hw, rfl, hold, hnew⟩)
    · exact .inl h
    · exact .inr ⟨hlk, hdone, p, k, hw, hold, hnew⟩
  · rintro (h | ⟨hlk, hdone, p, k, hw, hold, hnew⟩)
    · exact .inl h
    · exact .inr ⟨hlk, hdone, p, ch, k, hw, rfl, hold, hnew⟩

omit [DecidableEq C] [DecidableEq W] [DecidableEq L] [DecidableEq Ch] in
/-- A process that is about to release the lock of its channel holds it. -/
theorem closing_owner (hI : Inv lockOf holds s) {p : Fin n} {ch : Ch}
    (hp : (s.pc (.process p)).closing = some ch)
    {t : Thread n W} (ht : (s.pc t).lock lockOf = some (lockOf ch)) : t = .process p := by
  have hlock : (s.pc (.process p)).lock lockOf = some (lockOf ch) := by
    cases hpc : s.pc (.process p) <;> simp_all [Pc.closing, Pc.lock]
  exact hI.owner.holder_unique ht hlock

omit [DecidableEq C] [DecidableEq W] [DecidableEq L] [DecidableEq Ch] in
theorem closing_locked (hI : Inv lockOf holds s) {p : Fin n} {ch : Ch}
    (hp : (s.pc (.process p)).closing = some ch)
    {t : Thread n W} (ht : s.pc t = .locked (lockOf ch)) : False := by
  obtain rfl := closing_owner hI hp (by rw [ht]; rfl)
  rw [ht] at hp
  cases hp

theorem closing (hI : Inv lockOf holds s) (h : Moves lockOf holds s s') (p : Fin n) (ch : Ch)
    (hp : (s'.pc (.process p)).closing = some ch) (ch' : Ch) (hlk : lockOf ch' = lockOf ch) :
    s'.owed ch' = false := by
  have hold := hI.closing p
  cases h with
  | change t l d h =>
    refine Bool.eq_false_iff.2 fun howed => ?_
    rcases owed_change.1 howed with howed | ⟨rfl, -⟩
    · rw [hold ch hp ch' hlk] at howed
      cases howed
    · exact closing_locked hI hp (hlk ▸ h)
  | _ => dsimp only at hp ⊢; grind [Function.update_apply, Pc.closing]

/-! ## Sleepers and wakers -/

theorem owed (hI : Inv lockOf holds s) (h : Moves lockOf holds s s') (ch : Ch)
    (howed : s'.owed ch = true) :
    s'.owner (lockOf ch) ≠ none := by
  have hold := hI.owed ch
  cases h with
  | change t l d h =>
    have howner : s.owner l = some t :=
      (hI.owner l t).2 (show (s.pc t).lock lockOf = some l by rw [h]; rfl)
    rcases owed_change.1 howed with howed | ⟨rfl, -⟩
    · exact hold howed
    · show s.owner (lockOf ch) ≠ none
      simp [howner]
  | _ => dsimp only at howed ⊢; grind [Function.update_apply]

theorem past (hI : Inv lockOf holds s) (h : Moves lockOf holds s s') (p : Fin n) (ch : Ch)
    (hp : (s'.pc (.process p)).committed (s'.state p) = some ch) :
    s'.done ch = false ∧ ∀ t, ¬ (s'.pc t).past lockOf ch p := by
  have hold := hI.past p
  have hstate := hI.state p
  cases h with
  | wake t lk ch' q h hsleeping hchan =>
    have hheld : heldBy s.pc s.cpu (.thread t) = some q := by simp only [heldBy, h, Pc.plock]
    obtain ⟨hne, r, hr⟩ := hI.found hheld (by rw [h]; rfl) (by simp [hsleeping])
    grind [Function.update_apply, Pc.committed, Pc.past]
  | pass t lk ch' q h hnot =>
    have hheld : heldBy s.pc s.cpu (.thread t) = some q := by simp only [heldBy, h, Pc.plock]
    have hasleep (hne : t ≠ .process q) (hq : (s.pc (.process q)).committed (s.state q) =
        some ch) :=
      hI.asleep hheld (fun heq => hne (Agent.thread.inj heq)) hq
    grind [Function.update_apply, Pc.committed, Pc.past]
  | signal t q cont h hfound =>
    have hheld : heldBy s.pc s.cpu (.thread t) = some q := by simp only [heldBy, h, Pc.plock]
    obtain ⟨hne, r, hr⟩ :=
      hI.found hheld (by rw [h]; rfl) (by rcases hfound with h | h <;> simp [h])
    grind [Function.update_apply, Pc.committed, Pc.past]
  | sleepUnlock q ch' h =>
    -- who is past the slot holds the lock, as the process did until now
    have hlock : (s.pc (.process q)).lock lockOf = some (lockOf ch') := by rw [h]; rfl
    have hother {t : Thread n W} (hpast : (s.pc t).past lockOf ch' q) : t = .process q :=
      hI.owner.holder_unique (Pc.lock_of_past hpast) hlock
    dsimp only at hp ⊢
    grind [Function.update_apply, Pc.committed, Pc.past]
  | _ =>
    dsimp only [State.change] at hp ⊢
    grind [Function.update_apply, Pc.committed, Pc.past, Reason.chan, Pc.allows]

theorem tested (hI : Inv lockOf holds s) (h : Moves lockOf holds s s') (p : Fin n)
    (ch : Ch) (k : K)
    (hp : (s'.pc (.process p)).closing = some ch ∨
      (s'.pc (.process p)).committed (s'.state p) = some ch)
    (hwant : s'.want p = some (ch, k)) : holds k (s'.data (lockOf ch)) = false ∨
    s'.owed ch = true := by
  have hold := hI.tested p ch k
  cases h with
  | change t l d h =>
    by_cases hlk : lockOf ch = l
    · subst hlk
      have hcommitted : (s.pc (.process p)).committed (s.state p) = some ch :=
        hp.resolve_left fun hclosing => closing_locked hI hclosing h
      by_cases hnew : holds k d = true
      · right
        rcases hold hp hwant with hfalse | howed
        · exact owed_change.2 (.inr ⟨rfl, (hI.past p ch hcommitted).1, p, k, hwant, hfalse, hnew⟩)
        · exact owed_change.2 (.inl howed)
      · left
        simpa [State.change] using hnew
    · rcases hold hp hwant with hfalse | howed
      · left
        simpa [State.change, hlk] using hfalse
      · exact .inr (owed_change.2 (.inl howed))
  | finish t ch' i h hi =>
    -- nobody is committed to the channel behind the last slot
    have hpast := hI.past p ch
    have howner (hclosing : (s.pc (.process p)).closing = some ch') : t = .process p :=
      closing_owner hI hclosing (by rw [h]; rfl)
    dsimp only at hp hwant ⊢
    grind [Function.update_apply, Pc.closing, Pc.committed, Pc.past]
  | sleepUnlock q ch' h =>
    have hclosing := hI.closing q ch' (by rw [h]; rfl)
    dsimp only at hp hwant ⊢
    grind [Function.update_apply, Pc.closing, Pc.committed]
  | wake t lk ch' q h hsleeping hchan =>
    have hheld : heldBy s.pc s.cpu (.thread t) = some q := by simp only [heldBy, h, Pc.plock]
    obtain ⟨hne, r, hr⟩ := hI.found hheld (by rw [h]; rfl) (by simp [hsleeping])
    dsimp only at hp hwant ⊢
    grind [Function.update_apply, Pc.closing, Pc.committed]
  | signal t q cont h hfound =>
    have hheld : heldBy s.pc s.cpu (.thread t) = some q := by simp only [heldBy, h, Pc.plock]
    obtain ⟨hne, r, hr⟩ :=
      hI.found hheld (by rw [h]; rfl) (by rcases hfound with h | h <;> simp [h])
    dsimp only at hp hwant ⊢
    grind [Function.update_apply, Pc.closing, Pc.committed]
  | _ =>
    dsimp only at hp hwant ⊢
    grind [Function.update_apply, Pc.closing, Pc.committed, Reason.chan]

/-- **Every step keeps the invariant.** -/
theorem inv (hI : Inv lockOf holds s) (h : Moves lockOf holds s s') : Inv lockOf holds s' where
  owner := h.owner hI
  plock := h.plock hI
  unique := h.unique hI
  running := h.running hI
  onCpu := h.onCpu hI
  returned := h.returned hI
  ofProcess := h.ofProcess hI
  state := h.state hI
  queued := h.queued hI
  sleepChan := h.sleepChan hI
  calls := h.calls hI
  closing := h.closing hI
  tested := h.tested hI
  past := h.past hI
  owed := h.owed hI

end Moves

omit [DecidableEq C] [DecidableEq W] [DecidableEq L] [DecidableEq Ch] in
theorem Inv.init (lockOf : Ch → L) (holds : K → D → Bool) (queue : List (Fin n)) (data : L → D) :
    Inv lockOf holds (State.init queue data : State n C W L Ch K D) where
  owner l t := iff_of_false (by simp [State.init]) (by cases t <;> simp [State.init, Pc.lock])
  plock p a := iff_of_false (by simp [State.init]) (by
    cases a with
    | thread t => cases t <;> simp [State.init, heldBy, Pc.plock]
    | scheduler c => simp [State.init, heldBy, CpuPc.plock])
  unique c c' p h := by cases h
  running c p h := by cases h
  onCpu p h := by cases h
  returned c p h := by cases h
  ofProcess w := rfl
  state p := by
    show (if p ∈ queue then ProcState.runnable else .unused) ≠ .running ∧ _
    split <;> simp [State.init, *]
  queued p h := by
    left
    by_contra hp
    simp_all [State.init]
  sleepChan p ch h := by cases h
  calls p ch h := by cases h
  closing p ch h := by cases h
  tested p ch k h hw := by cases hw
  past p ch h := by
    simp only [State.init, Pc.committed, Reason.chan] at h
    split at h <;> cases h
  owed ch h := by cases h

/-! ## What holds in every state -/

/-- An agent can go on; a process that is about to switch does so with its CPU. -/
def State.Can (s : State n C W L Ch K D) (lockOf : Ch → L) : Agent n C W → Prop
  | .thread t =>
    (s.next lockOf t).isSome ∨ ∃ p c, t = .process p ∧ s.cpu c = .running p ∧ (s.schedule c).isSome
  | .scheduler c => (s.schedule c).isSome

/-- The process whose lock a thread stands before, as its next step takes it. -/
def State.waitsFor (s : State n C W L Ch K D) (t : Thread n W) : Option (Fin n) :=
  match s.pc t, t with
  | .scan _ _ i, _ => if h : i < n then some ⟨i, h⟩ else none
  | .send p _, _ => some p
  | .sleepLock _, .process p => some p
  | .giveUp _, .process p => some p
  | _, _ => none

/-- What callers of `sleep` and `wakeup` rely on. -/
structure Sound (lockOf : Ch → L) (holds : K → D → Bool) (s : State n C W L Ch K D) : Prop where
  /-- The condition of a process that sleeps is false, or the holder of the lock made it true and
  has yet to come to the process in `wakeup`. -/
  asleep : ∀ p, s.state p = .sleeping → ∃ ch k, s.sleepChan p = some ch ∧ s.want p = some (ch, k) ∧
    (holds k (s.data (lockOf ch)) = false ∨
      s.owed ch = true ∧ ∃ t, s.owner (lockOf ch) = some t ∧ ¬ (s.pc t).past lockOf ch p)
  /-- After `wakeup(ch)` nobody sleeps on `ch` until the lock is released. -/
  woken : ∀ ch, s.done ch = true → ∀ p, s.state p = .sleeping → s.sleepChan p ≠ some ch
  /-- A process that was woken is queued. -/
  queued : ∀ p, s.state p = .runnable → s.plock p = none → p ∈ s.taskQueue ∨ ∃ c,
    s.cpu c = .fetched p
  /-- Who is behind `acquire(lk)`, or behind `sleep(ch, lk)`, holds the lock. -/
  inside : ∀ t l, s.pc t = .locked l → s.owner l = some t
  /-- A process runs on one CPU at most, and on none that another one is switching away from it. -/
  alone : ∀ c c' p, s.cpu c = .running p → s.cpu c' = .running p ∨ s.cpu c' = .returned p → c = c'
  /-- Who holds the lock of a process never waits. -/
  procLock : ∀ p a, s.plock p = some a → s.Can lockOf a
  /-- Who holds another lock waits for nothing but such a lock. -/
  lock : ∀ l t, s.owner l = some t → (∃ op, (s.run lockOf holds t op).isSome) ∨
    ∃ p a, s.waitsFor t = some p ∧ s.plock p = some a ∧ s.Can lockOf a

namespace Inv

theorem procLock (hI : Inv lockOf holds s) (p : Fin n) (a : Agent n C W)
    (hp : s.plock p = some a) : s.Can lockOf a := by
  have hheld := (hI.plock p a).1 hp
  cases a with
  | thread t =>
    cases t with
    | interrupt w =>
      left
      have hw := hI.ofProcess w
      cases hpc : s.pc (.interrupt w) <;> simp_all [heldBy, Pc.plock, Pc.ofProcess, State.next]
    | process q =>
      cases hpc : s.pc (.process q) with
      | switch r =>
        -- its CPU makes the switch
        obtain ⟨c, hc⟩ := hI.onCpu q (by rw [hpc]; rfl)
        exact .inr ⟨q, c, rfl, hc, by simp [State.schedule, hc, hpc]⟩
      | back r => left; cases r <;> simp [State.next, hpc]
      | _ => left; simp_all [heldBy, Pc.plock, State.next]
  | scheduler c =>
    show (s.schedule c).isSome
    cases hc : s.cpu c with
    | chosen q =>
      by_cases hq : s.state q = .runnable
      · obtain ⟨r, hr⟩ :=
          hI.away (a := .scheduler c) (p := q) (by simp [heldBy, hc, CpuPc.plock]) (by simp)
            (by simp [hq])
        simp [State.schedule, hc, hq, hr]
      · simp [State.schedule, hc, hq]
    | _ => simp_all [heldBy, CpuPc.plock, State.schedule]

theorem lock (hI : Inv lockOf holds s) (l : L) (t : Thread n W) (ht : s.owner l = some t) :
    (∃ op, (s.run lockOf holds t op).isSome) ∨
      ∃ p a, s.waitsFor t = some p ∧ s.plock p = some a ∧ s.Can lockOf a := by
  have hlock : (s.pc t).lock lockOf = some l := (hI.owner l t).1 ht
  have hwait (p : Fin n) (hwaits : s.waitsFor t = some p) (hnext : s.plock p = none →
    (s.next lockOf t).isSome) :
      (∃ op, (s.run lockOf holds t op).isSome) ∨
        ∃ p a, s.waitsFor t = some p ∧ s.plock p = some a ∧ s.Can lockOf a := by
    cases hp : s.plock p with
    | none => exact .inl ⟨.next, hnext hp⟩
    | some a => exact .inr ⟨p, a, hwaits, hp, hI.procLock p a hp⟩
  cases hpc : s.pc t with
  | locked l' => exact .inl ⟨.release, by simp [State.run, hpc]⟩
  | scan lk ch i =>
    by_cases hi : i < n
    · exact hwait ⟨i, hi⟩ (by simp [State.waitsFor, hpc, hi])
        fun hfree => by simp [State.next, hpc, hi, hfree]
    · exact .inl ⟨.next, by simp [State.run, State.next, hpc, hi]⟩
  | sleepLock ch =>
    cases t with
    | interrupt w =>
      have hw := hI.ofProcess w
      rw [hpc] at hw
      cases hw
    | process p =>
      exact hwait p (by simp [State.waitsFor, hpc]) fun hfree => by simp [State.next, hpc, hfree]
  | sleepUnlock ch =>
    cases t with
    | interrupt w =>
      have hw := hI.ofProcess w
      rw [hpc] at hw
      cases hw
    | process p => exact .inl ⟨.next, by simp [State.run, State.next, hpc]⟩
  | check _ _ _ | checked _ _ _ => exact .inl ⟨.next, by simp [State.run, State.next, hpc]⟩
  | _ =>
    rw [hpc] at hlock
    cases hlock

omit [DecidableEq C] [DecidableEq W] [DecidableEq L] [DecidableEq Ch] in
/-- A sleeping process is committed to its channel. -/
theorem sleeps (hI : Inv lockOf holds s) {p : Fin n} (hp : s.state p = .sleeping) :
    ∃ ch, (s.pc (.process p)).committed (s.state p) = some ch ∧ (s.pc (.process p)).sleepChan =
      some ch := by
  have hallows := hI.state p
  rw [hp] at hallows ⊢
  cases hpc : s.pc (.process p) with
  | switch r =>
    rw [hpc] at hallows
    obtain ⟨ch, hch⟩ :=
      Option.isSome_iff_exists.1 (r.state_eq_sleeping.1 (show _ = r.state from hallows).symm)
    exact ⟨ch, hch, hch⟩
  | away r =>
    rw [hpc] at hallows
    obtain ⟨ch, hch⟩ := Option.isSome_iff_exists.1 (hallows.2 rfl)
    exact ⟨ch, by simpa [Pc.committed] using hch, hch⟩
  | _ =>
    rw [hpc] at hallows
    cases hallows

/-- **The invariant gives the callers all they rely on.** -/
theorem sound (hI : Inv lockOf holds s) : Sound lockOf holds s where
  asleep p hp := by
    obtain ⟨ch, hcommitted, hsleep⟩ := hI.sleeps hp
    have hcalls : (s.pc (.process p)).calls = some ch := by
      cases hpc : s.pc (.process p) <;> simp_all [Pc.calls, Pc.sleepChan]
    obtain ⟨k, hk⟩ := hI.calls p ch hcalls
    refine ⟨ch, k, hI.sleepChan p ch hsleep, hk, ?_⟩
    rcases hI.tested p ch k (.inr hcommitted) hk with hfalse | howed
    · exact .inl hfalse
    · obtain ⟨t, ht⟩ := Option.ne_none_iff_exists'.1 (hI.owed ch howed)
      exact .inr ⟨howed, t, ht, (hI.past p ch hcommitted).2 t⟩
  woken ch hdone p hp hchan := by
    obtain ⟨ch', hcommitted, hsleep⟩ := hI.sleeps hp
    obtain rfl : ch' = ch := Option.some.inj ((hI.sleepChan p ch' hsleep).symm.trans hchan)
    rw [(hI.past p ch' hcommitted).1] at hdone
    cases hdone
  queued p hp hfree := by
    have hnone := hI.plock.free hfree
    rcases hI.queued p hp with hqueue | haway | ⟨c, hc⟩
    · exact .inl hqueue
    · have hallows := hI.state p
      have hself := hnone (.thread (.process p))
      cases hpc : s.pc (.process p) <;> simp_all [Pc.allows, Pc.isAway, heldBy, Pc.plock]
    · have hself := hnone (.scheduler c)
      cases hcpu : s.cpu c <;> simp_all [CpuPc.takes, heldBy, CpuPc.plock]
      exact .inr ⟨c, hcpu⟩
  inside t l h := (hI.owner l t).2 (show (s.pc t).lock lockOf = some l by rw [h]; rfl)
  alone c c' p hc hc' := by
    rcases hc' with hc' | hc'
    · exact hI.unique c c' p hc hc'
    · have haway := hI.returned c' p hc'
      rw [hI.running c p hc] at haway
      cases haway
  procLock := hI.procLock
  lock := hI.lock

end Inv

/-- **No wakeup is lost**, in any run whose threads keep the discipline. -/
theorem no_lost_wakeup (lockOf : Ch → L) (holds : K → D → Bool) (queue : List (Fin n))
    (data : L → D)
    (acts : List (Act n C W L Ch K D)) (s : State n C W L Ch K D)
    (hrun : Runs.run (step lockOf holds) (State.init queue data) acts = some s)
    (hok : Runs.Along (step lockOf holds) (Ok lockOf holds) (State.init queue data) acts) :
    Sound lockOf holds s :=
  (Runs.run_induct (fun _ _ _ hI hok hstep => (moves_of_step hok hstep).inv hI)
    (Inv.init lockOf holds queue data) hrun
    hok).sound

/-- One channel, `&ticks`, with its lock; a process waits until there are `k` ticks. -/
def tickslock (_ : Unit) : Unit := ()

def elapsed (k ticks : Nat) : Bool := k ≤ ticks

def oneSleeper : State 1 Bool Unit Unit Unit Nat Nat := .init [0] fun _ => 0

/-- CPU 0 runs the only process, which waits for five ticks; a timer interrupt comes while it is in
`sleep`, and CPU 1 resumes the process. -/
def fiveTicks : List (Act 1 Bool Unit Unit Unit Nat Nat) :=
  let process := fun op => Act.thread (.process 0) op
  let timer := fun op => Act.thread (.interrupt ()) op
  List.replicate 3 (.scheduler false) ++
    [process .next, process (.acquire ()), process .next, process (.sleep () 5),
      timer (.acquire ()), process .next,
      process .next, timer .next, timer (.change 5), timer (.wakeup ()), process .next,
        process .next, .scheduler false,
      .scheduler false, .scheduler false, timer .next, timer .next, timer .next, timer .next,
        timer .release] ++
    List.replicate 3 (.scheduler true) ++ List.replicate 3 (process .next)

theorem no_lost_wakeup_fiveTicks :
    ∃ s, Runs.run (step tickslock elapsed) oneSleeper fiveTicks = some s ∧
      s.pc (.process 0) = .locked () ∧
      Sound tickslock elapsed s := by
  have hsome : (Runs.run (step tickslock elapsed) oneSleeper fiveTicks).any
    (fun s => s.pc (.process 0) = .locked ())
      = true := by
    decide +kernel
  have hok : Runs.Along (step tickslock elapsed) (Ok tickslock elapsed) oneSleeper fiveTicks := by
    decide +kernel
  obtain ⟨s, hs, hpc⟩ := (Option.any_eq_true _ _).1 hsome
  exact ⟨s, hs, of_decide_eq_true hpc, no_lost_wakeup tickslock elapsed [0] (fun _ => 0) fiveTicks
    s hs hok⟩

end SignalOS.Sleep
