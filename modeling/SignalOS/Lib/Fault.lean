import SignalOS.Lib.Spin
import SignalOS.Lib.Total

/-!
# Computations that may leave an array

Computations on a state and on the locks of one CPU that stop in one of two ways: by
a panic, or at an access outside of an array, after which nothing is known.

* `FaultM` — such computations; `locked`, `lift` — those that can only panic.
* `Agrees held out y x` — **`y` stays inside its arrays and is `x`**: started with the
  locks `held` it has the results of `x`, and holds the locks `out` after it.
* `NoPanic y s Q` — from `s`, `y` leaves an array, or it has a result that satisfies
  `Q`.
-/

namespace Fault

open Partial Spin

variable {σ L α β : Type}

/-- Why a computation has no result. -/
inductive Stop where
  | panic
  | outOfBounds
  deriving DecidableEq

/-- Computations on a state that may leave an array. -/
abbrev FaultM (σ : Type) := StateT σ (Except Stop)

/-- No result is a panic. -/
def orPanic : Option α → Except Stop α
  | none => .error .panic
  | some a => .ok a

/-- An access outside of an array. -/
def outside : FaultM σ α := fun _ => .error .outOfBounds

/-- A computation on a state and on locks that stays inside its arrays. -/
def locked (x : LockM σ L α) : FaultM (σ × List L) α := fun s => orPanic (x s)

/-- One that leaves the locks alone, too. -/
def lift (x : StateT σ Option α) : FaultM (σ × List L) α := locked (Spin.lift x)

/-! ## Staying inside -/

/-- With the locks `held` at the start, from `s`, `y` has the result of `x`, and holds the locks
`out` after it. -/
def AgreesAt (s : σ) (held : List L) (out : α → List L) (y : FaultM (σ × List L) α)
    (x : StateT σ Option α) : Prop :=
  y (s, held) = orPanic ((x s).map fun r => (r.1, r.2, out r.1))

/-- The same, from every state. -/
def Agrees (held : List L) (out : α → List L) (y : FaultM (σ × List L) α) (x : StateT σ Option α) :
    Prop :=
  ∀ s, AgreesAt s held out y x

variable {held held' : List L} {out : α → List L} {y : FaultM (σ × List L) α}
  {x : StateT σ Option α} {s t : σ}

namespace AgreesAt

theorem locked {z : LockM σ L α} (h : Erases held out z x) :
    AgreesAt s held out (Fault.locked z) x := by
  show orPanic (z (s, held)) = _
  rw [h s]

theorem pure {a : α} (h : out a = held) :
    AgreesAt s held out (Pure.pure a) (Pure.pure a : StateT σ Option α) := by
  show Except.ok (a, s, held) = Except.ok (a, s, out a)
  rw [h]

/-- **The rule of sequence.** -/
theorem bind {out' : β → List L} {f : α → FaultM (σ × List L) β} {g : α → StateT σ Option β}
    (hx : AgreesAt s held out y x) (hf : ∀ a t, x s = some (a, t) → AgreesAt t (out a) out' (f a)
    (g a)) :
    AgreesAt s held out' (y >>= f) (x >>= g) := by
  show Except.bind (y (s, held)) _ = orPanic (((x s).bind _).map _)
  rw [hx]
  cases hxs : x s with
  | none => rfl
  | some r => exact hf r.1 r.2 hxs

/-- A step that only takes or gives back locks. -/
theorem lock_bind {z : LockM σ L Unit} {f : Unit → FaultM (σ × List L) α}
    (hz : Erases held (fun _ => held') z (Pure.pure ())) (h : AgreesAt s held' out (f ()) x) :
    AgreesAt s held out (Fault.locked z >>= f) x := by
  refine bind (x := Pure.pure ()) (g := fun _ => x) (locked hz) fun _ t ht => ?_
  obtain ⟨-, rfl⟩ := pure_eq_some.1 ht
  exact h

/-- Two steps that lead to the same state. -/
theorem step {γ : Type} {z : StateT σ Option β} {z' : StateT σ Option γ}
    {f : β → FaultM (σ × List L) α}
    {g : γ → StateT σ Option α} {b : β} {c : γ} (hz : z s = some (b, t)) (hz' : z' s = some (c, t))
    (h : AgreesAt t held out (f b) (g c)) : AgreesAt s held out (lift z >>= f) (z' >>= g) := by
  show Except.bind (orPanic ((z s).map _)) _ = orPanic (((z' s).bind _).map _)
  rw [hz, hz']
  exact h

/-- A step of `y` alone that leaves the state as it is. -/
theorem skip {z : StateT σ Option β} {f : β → FaultM (σ × List L) α} {b : β}
    (hz : z s = some (b, s))
    (h : AgreesAt s held out (f b) x) : AgreesAt s held out (lift z >>= f) x := by
  show Except.bind (orPanic ((z s).map _)) _ = _
  rw [hz]
  exact h

theorem panic {γ : Type} {z : StateT σ Option β} {z' : StateT σ Option γ}
    {f : β → FaultM (σ × List L) α}
    {g : γ → StateT σ Option α} (hz : z s = none) (hz' : z' s = none) :
    AgreesAt s held out (lift z >>= f) (z' >>= g) := by
  show Except.bind (orPanic ((z s).map _)) _ = orPanic (((z' s).bind _).map _)
  rw [hz, hz']
  rfl

/-- The state is read. -/
theorem get_bind {f : σ × List L → FaultM (σ × List L) α} {g : σ → StateT σ Option α}
    (h : AgreesAt s held out (f (s, held)) (g s)) : AgreesAt s held out (get >>= f) (get >>= g) :=
    h

theorem ite {c : Prop} [Decidable c] {y' : FaultM (σ × List L) α} {x' : StateT σ Option α}
    (h : c → AgreesAt s held out y x) (h' : ¬ c → AgreesAt s held out y' x') :
    AgreesAt s held out (if c then y else y') (if c then x else x') := by
  split
  · exact h ‹_›
  · exact h' ‹_›

/-- No array is left. -/
theorem inside (h : AgreesAt s held out y x) : y (s, held) ≠ .error .outOfBounds := by
  rw [h]
  cases x s <;> simp [orPanic]

/-- What `y` returns, `x` returns. -/
theorem returns {a : α} {u : σ × List L} (h : AgreesAt s held out y x)
    (hrun : y (s, held) = .ok (a, u)) :
    x s = some (a, u.1) ∧ u.2 = out a := by
  rw [h] at hrun
  cases hx : x s with
  | none =>
    rw [hx] at hrun
    exact nomatch hrun
  | some r =>
    rw [hx] at hrun
    obtain rfl : r.1 = a := congrArg Prod.fst (Except.ok.inj hrun)
    obtain rfl : (r.2, out r.1) = u := congrArg Prod.snd (Except.ok.inj hrun)
    exact ⟨rfl, rfl⟩

end AgreesAt

namespace Agrees

theorem locked {z : LockM σ L α} (h : Erases held out z x) : Agrees held out (Fault.locked z) x :=
  fun _ => .locked h

theorem lift (held : List L) (x : StateT σ Option α) :
    Agrees held (fun _ => held) (Fault.lift x) x :=
  locked (.lift held x)

theorem pure {a : α} (h : out a = held) :
    Agrees held out (Pure.pure a) (Pure.pure a : StateT σ Option α) :=
  fun _ => .pure h

/-- The last part may rely on what the first part returns. -/
theorem bind_of {P : α → Prop} {out' : β → List L} {f : α → FaultM (σ × List L) β}
    {g : α → StateT σ Option β}
    (hx : Agrees held out y x) (hP : Returns P x)
    (hf : ∀ a, P a → Agrees (out a) out' (f a) (g a)) :
    Agrees held out' (y >>= f) (x >>= g) :=
  fun s => (hx s).bind fun a t ht => hf a (hP s a t ht) t

/-- **The rule of sequence.** -/
theorem bind {out' : β → List L} {f : α → FaultM (σ × List L) β} {g : α → StateT σ Option β}
    (hx : Agrees held out y x) (hf : ∀ a, Agrees (out a) out' (f a) (g a)) :
    Agrees held out' (y >>= f) (x >>= g) := fun s => (hx s).bind fun a t _ => hf a t

theorem lock_bind {z : LockM σ L Unit} {f : Unit → FaultM (σ × List L) α}
    (hz : Erases held (fun _ => held') z (Pure.pure ())) (hf : Agrees held' out (f ()) x) :
    Agrees held out (Fault.locked z >>= f) x := fun s => .lock_bind hz (hf s)

theorem get_bind {f : σ × List L → FaultM (σ × List L) α} {g : σ → StateT σ Option α}
    (h : ∀ s, Agrees held out (f (s, held)) (g s)) : Agrees held out (get >>= f) (get >>= g) :=
    fun s => .get_bind (h s s)

theorem ite {c : Prop} [Decidable c] {y' : FaultM (σ × List L) α} {x' : StateT σ Option α}
    (h : c → Agrees held out y x) (h' : ¬ c → Agrees held out y' x') :
    Agrees held out (if c then y else y') (if c then x else x') := fun s =>
      .ite (fun hc => h hc s) fun hc => h' hc s

end Agrees

/-! ## Without a panic -/

/-- From `s` the computation leaves an array, or it has a result that satisfies `Q`. -/
def NoPanic (y : FaultM σ α) (s : σ) (Q : α → σ → Prop) : Prop :=
  y s = .error .outOfBounds ∨ ∃ a t, y s = .ok (a, t) ∧ Q a t

namespace NoPanic

variable {s : σ} {y : FaultM σ α} {Q : α → σ → Prop}

theorem leaves : NoPanic (outside : FaultM σ α) s Q := .inl rfl

theorem pure {a : α} (h : Q a s) : NoPanic (Pure.pure a) s Q := .inr ⟨a, s, rfl, h⟩

theorem mono {Q' : α → σ → Prop} (h : NoPanic y s Q) (himp : ∀ a t, Q a t → Q' a t) :
    NoPanic y s Q' := by
  rcases h with h | ⟨a, t, hy, hQ⟩
  · exact .inl h
  · exact .inr ⟨a, t, hy, himp a t hQ⟩

/-- **The rule of sequence.** -/
theorem bind {f : α → FaultM σ β} {R : β → σ → Prop} (hy : NoPanic y s Q)
    (hf : ∀ a t, Q a t → NoPanic (f a) t R) :
    NoPanic (y >>= f) s R := by
  rcases hy with hy | ⟨a, t, hy, hQ⟩
  · refine .inl ?_
    show Except.bind (y s) _ = _
    rw [hy]
    rfl
  · have hrun : (y >>= f) s = f a t := by
      show Except.bind (y s) _ = _
      rw [hy]
      rfl
    rw [NoPanic, hrun]
    exact hf a t hQ

theorem get_bind {f : σ → FaultM σ α} (h : NoPanic (f s) s Q) : NoPanic (get >>= f) s Q := h

theorem ite {c : Prop} [Decidable c] {y' : FaultM σ α} (h : c → NoPanic y s Q)
    (h' : ¬ c → NoPanic y' s Q) :
    NoPanic (if c then y else y') s Q := by
  split
  · exact h ‹_›
  · exact h' ‹_›

/-- A computation that stays inside its arrays, and has a result. -/
theorem of_agrees {s : σ} {held : List L} {out : α → List L} {y : FaultM (σ × List L) α}
    {x : StateT σ Option α}
    {P : α → σ → Prop} (h : Agrees held out y x) (hx : Ends x s P) :
    NoPanic y (s, held) fun a t => t.2 = out a ∧ P a t.1 := by
  obtain ⟨a, t, hxs, hP⟩ := hx
  refine .inr ⟨a, (t, out a), ?_, rfl, hP⟩
  rw [h s, hxs]
  rfl

theorem of_run {s t : σ} {a : α} {held : List L} {out : α → List L} {y : FaultM (σ × List L) α}
    {x : StateT σ Option α}
    (h : Agrees held out y x) (hx : x s = some (a, t)) : NoPanic y (s, held) fun b u => b = a ∧
    u = (t, out a) := by
  refine .inr ⟨a, (t, out a), ?_, rfl, rfl⟩
  rw [h s, hx]
  rfl

/-- Where nothing may be returned, an array is left. -/
theorem stops (h : NoPanic y s fun _ _ => False) : y s = .error .outOfBounds :=
  h.resolve_right fun ⟨_, _, _, hno⟩ => hno

end NoPanic

end Fault
