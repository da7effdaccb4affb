import SignalOS.Lib.Partial

/-!
# Computations that do not notice a change of the state

* `CommutesAt f x s` — from `f s`, `x` does what it does from `s`: it has the same value,
  and the state after it is changed by `f`, too.
* `Commutes f x` — the same, from every state.
* `CommutesIf f P x` — the same, for the runs whose value satisfies `P`.

All three come with the rules for the constructs of a program.
-/

namespace Partial

variable {σ α β : Type} {f : σ → σ} {x : StateT σ Option α} {s : σ}

/-- The change `f` of the state makes no difference to the computation from `s`. -/
def CommutesAt (f : σ → σ) (x : StateT σ Option α) (s : σ) : Prop :=
  x (f s) = (x s).map fun r => (r.1, f r.2)

/-- It makes no difference from any state. -/
def Commutes (f : σ → σ) (x : StateT σ Option α) : Prop := ∀ s, CommutesAt f x s

/-- It makes no difference to a run with such a value. -/
def CommutesIf (f : σ → σ) (P : α → Prop) (x : StateT σ Option α) : Prop :=
  ∀ s a t, x s = some (a, t) → P a → x (f s) = some (a, f t)

namespace CommutesAt

theorem of_eq {a : α} {t : σ} (h : x s = some (a, t)) (h' : x (f s) = some (a, f t)) :
    CommutesAt f x s := by
  rw [CommutesAt, h, h']
  rfl

/-- **The rule of sequence.** -/
theorem bind {g : α → StateT σ Option β} (hx : CommutesAt f x s)
    (hg : ∀ a t, x s = some (a, t) → CommutesAt f (g a) t) : CommutesAt f (x >>= g) s := by
  show (x (f s)).bind _ = ((x s).bind _).map _
  rw [hx]
  cases hxs : x s with
  | none => rfl
  | some r => exact hg r.1 r.2 hxs

theorem get_bind {g : σ → StateT σ Option β} (hsame : g (f s) = g s) (h : CommutesAt f (g s) s) :
    CommutesAt f (get >>= g) s := by
  show g (f s) (f s) = (g s s).map _
  rw [hsame]
  exact h

end CommutesAt

namespace Commutes

theorem pure (a : α) : Commutes f (Pure.pure a) := fun _ => rfl

theorem fail : Commutes f (fun _ => none : StateT σ Option α) := fun _ => rfl

theorem bind {g : α → StateT σ Option β} (hx : Commutes f x) (hg : ∀ a, Commutes f (g a)) :
    Commutes f (x >>= g) :=
  fun s => (hx s).bind fun a t _ => hg a t

/-- The part of the state that is read is not changed. -/
theorem get_bind {g : σ → StateT σ Option β} (hsame : ∀ s, g (f s) = g s)
    (hg : ∀ s, Commutes f (g s)) :
    Commutes f (get >>= g) := fun s => .get_bind (hsame s) (hg s s)

theorem modify {g : σ → σ} (h : ∀ s, g (f s) = f (g s)) :
    Commutes f (modify g : StateT σ Option PUnit) := by
  intro s
  show some (PUnit.unit, g (f s)) = some (PUnit.unit, f (g s))
  rw [h]

theorem ite {c : Prop} [Decidable c] {y : StateT σ Option α} (hx : Commutes f x)
    (hy : Commutes f y) :
    Commutes f (if c then x else y) := by
  split
  · exact hx
  · exact hy

theorem forM {g : β → StateT σ Option PUnit} (hg : ∀ b, Commutes f (g b)) (l : List β) :
    Commutes f (l.forM g) := by
  induction l with
  | nil => exact pure _
  | cons b l ih => exact bind (hg b) fun _ => ih

end Commutes

namespace CommutesIf

variable {P : α → Prop} {Q : β → Prop}

theorem of_commutes (h : Commutes f x) : CommutesIf f P x := by
  intro s a t hx _
  rw [h s, hx]
  rfl

/-- The runs that do not matter. -/
theorem of_not (h : Returns (fun a => ¬ P a) x) : CommutesIf f P x :=
  fun s a t hx hP => absurd hP (h s a t hx)

theorem commutesAt {a : α} {t : σ} (h : CommutesIf f P x) (hx : x s = some (a, t)) (hP : P a) :
    CommutesAt f x s :=
  .of_eq hx (h s a t hx hP)

/-- **The rule of sequence**: if the first part has a value that does not matter, so has the
whole. -/
theorem bind {g : α → StateT σ Option β} (hx : CommutesIf f P x)
    (hg : ∀ a, P a → CommutesIf f Q (g a))
    (hnot : ∀ a, ¬ P a → Returns (fun b => ¬ Q b) (g a)) : CommutesIf f Q (x >>= g) := by
  intro s b u h hQ
  obtain ⟨a, t, hxs, hgt⟩ := bind_eq_some.1 h
  by_cases hP : P a
  · exact bind_eq_some.2 ⟨a, f t, hx s a t hxs hP, hg a hP t b u hgt hQ⟩
  · exact absurd hQ (hnot a hP t b u hgt)

theorem bind_of_commutes {g : α → StateT σ Option β} (hx : Commutes f x)
    (hg : ∀ a, CommutesIf f Q (g a)) :
    CommutesIf f Q (x >>= g) :=
  bind (P := fun _ => True) (of_commutes hx) (fun a _ => hg a) fun _ hno => absurd trivial hno

theorem get_bind {g : σ → StateT σ Option β} (hsame : ∀ s, g (f s) = g s)
    (hg : ∀ s, CommutesIf f Q (g s)) :
    CommutesIf f Q (get >>= g) := by
  intro s b u h hQ
  show g (f s) (f s) = some (b, f u)
  rw [hsame]
  exact hg s s b u h hQ

theorem ite {c : Prop} [Decidable c] {y : StateT σ Option α} (hx : c → CommutesIf f P x)
    (hy : ¬ c → CommutesIf f P y) :
    CommutesIf f P (if c then x else y) := by
  split
  · exact hx ‹_›
  · exact hy ‹_›

end CommutesIf

end Partial
