import SignalOS.Lib.Partial

/-!
# Spinlocks of one CPU

Computations on a state and on the locks that one CPU holds.  A lock that another CPU
holds is waited for, so it makes no difference here; a lock that this CPU holds is
never acquired again, and one that it does not hold is never released: there is no
result then.

* `LockM` — such computations; `lift` — one that leaves the locks alone.
* `initLock`, `acquire`, `release`, `assertHolding`.
* `Erases held out y x` — **without its locks `y` is `x`**: started with the locks `held`
  it has the results of `x`, and holds the locks `out` after it.
-/

namespace Spin

variable {σ L α β : Type} [DecidableEq L]

/-- Computations on a state and on the locks that are held. -/
abbrev LockM (σ L : Type) := StateT (σ × List L) Option

/-- A computation that leaves the locks as they are. -/
def lift (x : StateT σ Option α) : LockM σ L α := fun s => (x s.1).map fun r => (r.1, r.2, s.2)

/-- The lock is free, whatever its memory held before. -/
def initLock (lk : L) : LockM σ L Unit := fun s => some ((), s.1, s.2.filter (· ≠ lk))

def acquire (lk : L) : LockM σ L Unit :=
  fun s => if lk ∈ s.2 then none else some ((), s.1, lk :: s.2)

def release (lk : L) : LockM σ L Unit :=
  fun s => if lk ∈ s.2 then some ((), s.1, s.2.erase lk) else none

def assertHolding (lk : L) : LockM σ L Unit := fun s => if lk ∈ s.2 then some ((), s) else none

/-- With the locks `held` at the start, `y` has the results of `x`, and holds the locks `out` after
it. -/
def Erases (held : List L) (out : α → List L) (y : LockM σ L α) (x : StateT σ Option α) : Prop :=
  ∀ s, y (s, held) = (x s).map fun r => (r.1, r.2, out r.1)

namespace Erases

variable {held held' : List L} {out : α → List L} {y : LockM σ L α} {x : StateT σ Option α}
  {lk : L}

omit [DecidableEq L] in
theorem lift (held : List L) (x : StateT σ Option α) :
    Erases held (fun _ => held) (Spin.lift x) x :=
  fun _ => rfl

omit [DecidableEq L] in
theorem pure {a : α} (h : out a = held) :
    Erases held out (Pure.pure a) (Pure.pure a : StateT σ Option α) := by
  intro s
  show some (a, s, held) = some (a, s, out a)
  rw [h]

omit [DecidableEq L] in
/-- **The rule of sequence.** -/
theorem bind {out : β → List L} {f : α → LockM σ L β} {g : α → StateT σ Option β}
    (hx : Erases held (fun _ => held') y x) (hf : ∀ a, Erases held' out (f a) (g a)) :
    Erases held out (y >>= f) (x >>= g) := by
  intro s
  show (y (s, held)).bind _ = ((x s).bind _).map _
  rw [hx s]
  cases x s with
  | none => rfl
  | some r => exact hf r.1 r.2

omit [DecidableEq L] in
/-- The state is read. -/
theorem get_bind {f : σ → LockM σ L α} {g : σ → StateT σ Option α}
    (h : ∀ s, Erases held out (f s) (g s)) :
    Erases held out (get >>= fun s => f s.1) (get >>= g) := fun s => h s s

omit [DecidableEq L] in
theorem ite {c : Prop} [Decidable c] {y' : LockM σ L α} {x' : StateT σ Option α}
    (h : c → Erases held out y x)
    (h' : ¬ c → Erases held out y' x') :
    Erases held out (if c then y else y') (if c then x else x') := by
  split
  · exact h ‹_›
  · exact h' ‹_›

theorem acquire (hfree : lk ∉ held) :
    Erases held (fun _ => lk :: held) (acquire lk) (Pure.pure () : StateT σ Option Unit) :=
  fun _ => if_neg hfree

theorem release (hheld : lk ∈ held) :
    Erases held (fun _ => held.erase lk) (release lk) (Pure.pure () : StateT σ Option Unit) :=
      fun _ => if_pos hheld

theorem assertHolding (hheld : lk ∈ held) :
    Erases held (fun _ => held) (assertHolding lk) (Pure.pure () : StateT σ Option Unit) :=
      fun _ => if_pos hheld

theorem init_bind {f : Unit → LockM σ L α} (h : Erases (held.filter (· ≠ lk)) out (f ()) x) :
    Erases held out (initLock lk >>= f) x := fun s => h s

theorem acquire_bind {f : Unit → LockM σ L α} (hfree : lk ∉ held)
    (h : Erases (lk :: held) out (f ()) x) :
    Erases held out (Spin.acquire lk >>= f) x := bind (acquire hfree) fun _ => h

theorem release_bind {f : Unit → LockM σ L α} (hheld : lk ∈ held)
    (h : Erases (held.erase lk) out (f ()) x) :
    Erases held out (Spin.release lk >>= f) x := bind (release hheld) fun _ => h

theorem assertHolding_bind {f : Unit → LockM σ L α} (hheld : lk ∈ held)
    (h : Erases held out (f ()) x) :
    Erases held out (Spin.assertHolding lk >>= f) x := bind (assertHolding hheld) fun _ => h

/-- A lock that is not held cannot be released. -/
theorem release_fail {f : Unit → LockM σ L α} (hfree : lk ∉ held) :
    Erases held out (Spin.release lk >>= f) (fun _ => none) := by
  intro s
  show (if lk ∈ held then _ else none : Option (Unit × σ × List L)).bind _ = _
  rw [if_neg hfree]
  rfl

end Erases

end Spin
