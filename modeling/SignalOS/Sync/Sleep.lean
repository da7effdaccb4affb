import Mathlib.Data.Fintype.Defs
import Mathlib.Logic.Function.Basic
import SignalOS.Lib.Runs
import SignalOS.Proc.Proc

/-!
# `sleep` and `wakeup`, step by step

`sleep` and `wakeup` of `proc.c` with the switches of `sched.c`, for any number of processes,
CPUs, interrupt handlers, channels and locks.  Every access to a lock or to a field of a process
is a step of its own; a step that has to wait for a lock is not possible until the lock is free.

* `Pc`, `CpuPc` — where a thread stands in these functions, and a CPU in `scheduler`.
* `State` — the locks, the fields of the processes that these functions use, and the data that
  the locks guard.
* `step` — one step of a thread or of a scheduler.  Signals are sent with no lock held; the
  `SIGCHLD` that `kill` sends while it holds `p->lock` is left out.
* `Ok` — what callers promise: a process calls `sleep` while its condition is false, and who makes
  a condition true calls `wakeup` before the lock is released.
-/

namespace SignalOS.Sleep

open Function (update)

/-- Why a process calls `sched`: in `sleep`, in `yield`, or to stop in `usertrapret`. -/
inductive Reason (Ch : Type) where
  | asleep (ch : Ch)
  | yielded
  | stopped
  deriving DecidableEq

/-- The state that the process sets before. -/
def Reason.state {Ch : Type} : Reason Ch → ProcState
  | .asleep _ => .sleeping
  | .yielded => .runnable
  | .stopped => .stopped

/-- Where a thread stands; `lk` is the lock under which it called `wakeup`, if any. -/
inductive Pc (n : Nat) (L Ch : Type) where
  | running
  /-- In `acquire(lk)`. -/
  | acquiring (lk : L)
  /-- Between `acquire(lk)` and `release(lk)`. -/
  | locked (lk : L)
  /-- `wakeup(ch)`, before it locks slot `i`. -/
  | scan (lk : Option L) (ch : Ch) (i : Nat)
  /-- It has locked the slot. -/
  | check (lk : Option L) (ch : Ch) (p : Fin n)
  /-- Before it releases the slot. -/
  | checked (lk : Option L) (ch : Ch) (p : Fin n)
  /-- A signal for `p`, a `SIGCONT` or another one: before `p->lock` is acquired. -/
  | send (p : Fin n) (cont : Bool)
  | sending (p : Fin n) (cont : Bool)
  | sent (p : Fin n)
  /-- `sleep(ch, lk)`, before `acquire(&p->lock)`. -/
  | sleepLock (ch : Ch)
  /-- Before `release(lk)`. -/
  | sleepUnlock (ch : Ch)
  /-- Before `p->sleep_chan = ch`. -/
  | setChan (ch : Ch)
  /-- `yield()` or the stop, before `acquire(&p->lock)`. -/
  | giveUp (stop : Bool)
  /-- Before `p->state` is set. -/
  | setState (r : Reason Ch)
  /-- In `sched()`, before `swtch`. -/
  | switch (r : Reason Ch)
  /-- Switched away. -/
  | away (r : Reason Ch)
  /-- Back in `sched()`. -/
  | back (r : Reason Ch)
  /-- In `sleep`, before `release(&p->lock)`. -/
  | cleared (ch : Ch)
  /-- Before `acquire(lk)`. -/
  | relock (ch : Ch)
  deriving DecidableEq

/-- Where a CPU stands in `scheduler`. -/
inductive CpuPc (n : Nat) where
  | idle
  | fetched (p : Fin n)
  /-- It has locked the process. -/
  | chosen (p : Fin n)
  | running (p : Fin n)
  /-- Back from `swtch`. -/
  | returned (p : Fin n)
  /-- Before `release(&p->lock)`. -/
  | leaving (p : Fin n)
  deriving DecidableEq

/-- The threads: processes and interrupt handlers. -/
inductive Thread (n : Nat) (W : Type) where
  | process (p : Fin n)
  | interrupt (w : W)
  deriving DecidableEq

/-- Who holds locks: a thread, or the scheduler of a CPU. -/
inductive Agent (n : Nat) (C W : Type) where
  | thread (t : Thread n W)
  | scheduler (c : C)
  deriving DecidableEq

structure State (n : Nat) (C W L Ch K D : Type) where
  owner : L → Option (Thread n W)
  /-- The holder of `p->lock`. -/
  plock : Fin n → Option (Agent n C W)
  state : Fin n → ProcState
  sleepChan : Fin n → Option Ch
  taskQueue : List (Fin n)
  pc : Thread n W → Pc n L Ch
  cpu : C → CpuPc n
  /-- What each lock guards. -/
  data : L → D
  /-- The channel and the condition of the call of `sleep` that a process is in. -/
  want : Fin n → Option (Ch × K)
  /-- The condition of a sleeper was made true since the lock was taken, and `wakeup` has not
  finished since. -/
  owed : Ch → Bool
  /-- `wakeup` has finished since the lock was taken. -/
  done : Ch → Bool

section

variable {n : Nat} {C W L Ch K D : Type} [DecidableEq C] [DecidableEq W] [DecidableEq L]
  [DecidableEq Ch]

namespace State

variable (s : State n C W L Ch K D)

def goto (t : Thread n W) (q : Pc n L Ch) : State n C W L Ch K D :=
  { s with pc := update s.pc t q }

def take (l : L) (t : Thread n W) : State n C W L Ch K D :=
  { s with owner := update s.owner l (some t) }

/-- `release(lk)`; with it the accounts of the channels of the lock are closed. -/
def drop (lockOf : Ch → L) (l : L) : State n C W L Ch K D :=
  { s with
    owner := update s.owner l none
    owed := fun ch => if lockOf ch = l then false else s.owed ch
    done := fun ch => if lockOf ch = l then false else s.done ch }

def lockProc (p : Fin n) (a : Agent n C W) : State n C W L Ch K D :=
  { s with plock := update s.plock p (some a) }

def unlockProc (p : Fin n) : State n C W L Ch K D := { s with plock := update s.plock p none }

/-- `p->state = RUNNABLE; add_task(p);` -/
def wake (p : Fin n) : State n C W L Ch K D :=
  { s with state := update s.state p .runnable, taskQueue := s.taskQueue ++ [p] }

/-- The holder of the lock changes what it guards. -/
def change (lockOf : Ch → L) (holds : K → D → Bool) (l : L) (d : D) : State n C W L Ch K D :=
  { s with
    data := update s.data l d
    owed := fun ch => s.owed ch || (lockOf ch = l && !s.done ch &&
      decide (∃ p, (s.want p).any fun w => w.1 = ch && !holds w.2 (s.data l) && holds w.2 d)) }

/-- `wakeup(ch)` returns to code that holds `lk`. -/
def finish (lockOf : Ch → L) (lk : Option L) (ch : Ch) : State n C W L Ch K D :=
  if lk = some (lockOf ch) then
    { s with owed := update s.owed ch false, done := update s.done ch true } else s

/-- The thread goes on in the function that it is in. -/
def next (lockOf : Ch → L) (t : Thread n W) : Option (State n C W L Ch K D) :=
  match t, s.pc t with
  | _, .acquiring l => if s.owner l = none then some ((s.take l t).goto t (.locked l)) else none
  | _, .scan lk ch i =>
    if hi : i < n then
      if s.plock ⟨i, hi⟩ = none then some ((s.lockProc ⟨i, hi⟩ (.thread t)).goto t
        (.check lk ch ⟨i, hi⟩)) else none
    else some ((s.finish lockOf lk ch).goto t (lk.elim .running .locked))
  | _, .check lk ch p =>
    some ((if s.state p = .sleeping ∧ s.sleepChan p = some ch then s.wake p else s).goto t
      (.checked lk ch p))
  | _, .checked lk ch p => some ((s.unlockProc p).goto t (.scan lk ch (p + 1)))
  | _, .send p cont =>
    if s.plock p = none then some ((s.lockProc p (.thread t)).goto t (.sending p cont)) else none
  | _, .sending p cont =>
    some ((if s.state p = (if cont then .stopped else .sleeping) then s.wake p else s).goto t
      (.sent p))
  | _, .sent p => some ((s.unlockProc p).goto t .running)
  | .process p, .sleepLock ch =>
    if s.plock p = none then some ((s.lockProc p (.thread t)).goto t (.sleepUnlock ch)) else none
  | .process _, .sleepUnlock ch => some ((s.drop lockOf (lockOf ch)).goto t (.setChan ch))
  | .process p, .setChan ch =>
    some ({ s with sleepChan := update s.sleepChan p (some ch) }.goto t (.setState (.asleep ch)))
  | .process p, .giveUp stop =>
    if s.plock p = none then some ((s.lockProc p (.thread t)).goto t
      (.setState (if stop then .stopped else .yielded)))
    else none
  | .process p, .setState r =>
    some ({ s with state := update s.state p r.state }.goto t (.switch r))
  | .process p, .back (.asleep ch) =>
    some ({ s with sleepChan := update s.sleepChan p none }.goto t (.cleared ch))
  | .process p, .back _ => some ((s.unlockProc p).goto t .running)
  | .process p, .cleared ch =>
    some ({ s.unlockProc p with want := update s.want p none }.goto t (.relock ch))
  | .process _, .relock ch =>
    if s.owner (lockOf ch) = none then some ((s.take (lockOf ch) t).goto t (.locked (lockOf ch)))
      else none
  | _, _ => none

end State

/-- What a thread does: it goes on in the function that it is in, or makes a call. -/
inductive Op (n : Nat) (L Ch K D : Type) where
  | next
  | acquire (lk : L)
  | release
  /-- It changes what the lock that it holds guards. -/
  | change (d : D)
  | wakeup (ch : Ch)
  /-- A signal that wakes a stopped process, `SIGCONT`, or one that wakes a sleeping process. -/
  | send (p : Fin n) (cont : Bool)
  /-- `sleep(ch, lk)`, with the lock that it holds; the process waits for `k`. -/
  | sleep (ch : Ch) (k : K)
  | yield
  /-- The stop in `usertrapret`. -/
  | stop
  deriving DecidableEq

/-- A step of a thread. -/
def State.run (lockOf : Ch → L) (holds : K → D → Bool) (s : State n C W L Ch K D)
    (t : Thread n W) :
    Op n L Ch K D → Option (State n C W L Ch K D)
  | .next => s.next lockOf t
  | .acquire l => if s.pc t = .running then some (s.goto t (.acquiring l)) else none
  | .release =>
    match s.pc t with
    | .locked l => some ((s.drop lockOf l).goto t .running)
    | _ => none
  | .change d =>
    match s.pc t with
    | .locked l => some (s.change lockOf holds l d)
    | _ => none
  | .wakeup ch =>
    match s.pc t with
    | .running => some (s.goto t (.scan none ch 0))
    | .locked l => some (s.goto t (.scan (some l) ch 0))
    | _ => none
  | .send p cont => if s.pc t = .running then some (s.goto t (.send p cont)) else none
  | .sleep ch k =>
    match t with
    | .process p =>
      if s.pc t = .locked (lockOf ch) then some
        ({ s with want := update s.want p (some (ch, k)) }.goto t (.sleepLock ch))
      else none
    | .interrupt _ => none
  | .yield =>
    match t with
    | .process _ => if s.pc t = .running then some (s.goto t (.giveUp false)) else none
    | .interrupt _ => none
  | .stop =>
    match t with
    | .process _ => if s.pc t = .running then some (s.goto t (.giveUp true)) else none
    | .interrupt _ => none

/-- A step of `scheduler` on a CPU, or the `swtch` of the process that it runs. -/
def State.schedule (s : State n C W L Ch K D) (c : C) : Option (State n C W L Ch K D) :=
  match s.cpu c with
  | .idle =>
    match s.taskQueue with
    | [] => none
    | p :: rest => some { s with taskQueue := rest, cpu := update s.cpu c (.fetched p) }
  | .fetched p =>
    if s.plock p = none then some
      { s.lockProc p (.scheduler c) with cpu := update s.cpu c (.chosen p) } else none
  | .chosen p =>
    if s.state p = .runnable then
      match s.pc (.process p) with
      | .away r =>
        some ({ s.lockProc p (.thread (.process p)) with
          state := update s.state p .running
          cpu := update s.cpu c (.running p) }.goto (.process p) (.back r))
      | _ => none
    else some { s with cpu := update s.cpu c (.leaving p) }
  | .running p =>
    match s.pc (.process p) with
    | .switch r =>
      some ({ s.lockProc p (.scheduler c) with cpu := update s.cpu c (.returned p) }.goto
        (.process p) (.away r))
    | _ => none
  | .returned p =>
    some { s with
      taskQueue := if s.state p = .runnable then s.taskQueue ++ [p] else s.taskQueue
      cpu := update s.cpu c (.leaving p) }
  | .leaving p => some { s.unlockProc p with cpu := update s.cpu c .idle }

/-- What may happen next. -/
inductive Act (n : Nat) (C W L Ch K D : Type) where
  | thread (t : Thread n W) (op : Op n L Ch K D)
  | scheduler (c : C)
  deriving DecidableEq

def step (lockOf : Ch → L) (holds : K → D → Bool) (s : State n C W L Ch K D) :
    Act n C W L Ch K D → Option (State n C W L Ch K D)
  | .thread t op => s.run lockOf holds t op
  | .scheduler c => s.schedule c

/-- **The discipline of the callers**: no condition that was made true is owed a `wakeup` when its
lock is released, in `sleep` too, and a process calls `sleep` while its condition is false. -/
def Ok (lockOf : Ch → L) (holds : K → D → Bool) (s : State n C W L Ch K D) :
    Act n C W L Ch K D → Prop
  | .thread t .release =>
    match s.pc t with
    | .locked l => ∀ ch, lockOf ch = l → s.owed ch = false
    | _ => True
  | .thread _ (.sleep ch k) =>
    holds k (s.data (lockOf ch)) = false ∧ ∀ ch', lockOf ch' = lockOf ch → s.owed ch' = false
  | _ => True

instance Ok.decidable [Fintype Ch] (lockOf : Ch → L) (holds : K → D → Bool)
    (s : State n C W L Ch K D) (a : Act n C W L Ch K D) :
    Decidable (Ok lockOf holds s a) := by
  unfold Ok
  split
  · split <;> infer_instance
  · infer_instance
  · infer_instance

/-- Nobody holds a lock; the processes in the queue have been switched away, the others do not
exist. -/
def State.init (queue : List (Fin n)) (data : L → D) : State n C W L Ch K D where
  owner _ := none
  plock _ := none
  state p := if p ∈ queue then .runnable else .unused
  sleepChan _ := none
  taskQueue := queue
  pc
    | .process _ => .away .yielded
    | .interrupt _ => .running
  cpu _ := .idle
  data := data
  want _ := none
  owed _ := false
  done _ := false

end

end SignalOS.Sleep
