import Mathlib.Tactic.Common

/-!
# Computations on a state that may have no result

`StateT σ Option` read forwards: from a run that has a result, the runs of its
parts.

* `bind_eq_some`, `pure_eq_some`, `get_eq_some`, `modify_eq_some` — the inversion
  rules; `get_bind`, `modify_bind`, `set_bind` — the parts that always have a result.
* `Returns` — every value a computation returns has a property.
* `Keeps` — every run of a computation relates the states before and after it by a
  relation.  Both come with the rules by which they are seen from the parts.
-/

namespace Partial

variable {σ α β : Type} {s t : σ}

/-- **The inversion rule**: a run of a sequence is a run of its parts. -/
theorem bind_eq_some {x : StateT σ Option α} {f : α → StateT σ Option β} {r : β × σ} :
    (x >>= f) s = some r ↔ ∃ a t, x s = some (a, t) ∧ f a t = some r := by
  constructor
  · intro h
    obtain ⟨⟨a, t⟩, hx, hf⟩ := Option.bind_eq_some_iff.1 h
    exact ⟨a, t, hx, hf⟩
  · rintro ⟨a, t, hx, hf⟩
    exact Option.bind_eq_some_iff.2 ⟨(a, t), hx, hf⟩

theorem bind_apply {x : StateT σ Option α} {f : α → StateT σ Option β} {a : α}
    (h : x s = some (a, t)) :
    (x >>= f) s = f a t := by
  show (x s).bind _ = _
  rw [h]
  rfl

theorem pure_eq_some {a b : α} :
    (pure a : StateT σ Option α) s = some (b, t) ↔ b = a ∧ t = s := by
  constructor
  · intro h
    have hpair : (a, s) = (b, t) := Option.some.inj h
    exact ⟨(congrArg Prod.fst hpair).symm, (congrArg Prod.snd hpair).symm⟩
  · rintro ⟨rfl, rfl⟩
    rfl

theorem get_eq_some {b : σ} :
    (get : StateT σ Option σ) s = some (b, t) ↔ b = s ∧ t = s := by
  constructor
  · intro h
    have hpair : (s, s) = (b, t) := Option.some.inj h
    exact ⟨(congrArg Prod.fst hpair).symm, (congrArg Prod.snd hpair).symm⟩
  · rintro ⟨rfl, rfl⟩
    rfl

theorem modify_eq_some {f : σ → σ} {b : PUnit} :
    (modify f : StateT σ Option PUnit) s = some (b, t) ↔ t = f s := by
  constructor
  · intro h
    have hpair : (PUnit.unit, f s) = (b, t) := Option.some.inj h
    exact (congrArg Prod.snd hpair).symm
  · rintro rfl
    rfl

theorem discard_eq_some {x : StateT σ Option α} {b : PUnit} :
    (discard x : StateT σ Option PUnit) s = some (b, t) ↔ ∃ a, x s = some (a, t) := by
  have hrun : (discard x : StateT σ Option PUnit) s = (x s).map fun r => (⟨⟩, r.2) := by
    cases hx : x s <;> simp [discard, Functor.mapConst, StateT.map, hx]
  rw [hrun, Option.map_eq_some_iff]
  constructor
  · rintro ⟨⟨a, u⟩, hx, heq⟩
    cases heq
    exact ⟨a, hx⟩
  · rintro ⟨a, hx⟩
    exact ⟨(a, t), hx, rfl⟩

theorem get_bind {f : σ → StateT σ Option β} : (get >>= f) s = f s s := rfl

theorem modify_bind {g : σ → σ} {f : PUnit → StateT σ Option β} :
    (modify g >>= f) s = f ⟨⟩ (g s) := rfl

theorem set_bind {f : PUnit → StateT σ Option β} : (set t >>= f) s = f ⟨⟩ t := rfl

/-! ## Properties of what is returned -/

/-- Every value the computation returns has the property. -/
def Returns (P : α → Prop) (x : StateT σ Option α) : Prop :=
  ∀ s a t, x s = some (a, t) → P a

namespace Returns

variable {P : α → Prop} {Q : β → Prop} {x : StateT σ Option α} {f : α → StateT σ Option β}

theorem pure {a : α} (h : P a) : Returns P (Pure.pure a : StateT σ Option α) := by
  intro s b t hab
  obtain ⟨rfl, -⟩ := pure_eq_some.1 hab
  exact h

theorem fail : Returns P (fun _ => none : StateT σ Option α) := by
  intro s a t h
  cases h

/-- What the last part returns is returned. -/
theorem bind (hf : ∀ a, Returns Q (f a)) : Returns Q (x >>= f) := by
  intro s b u h
  obtain ⟨a, t, -, hft⟩ := bind_eq_some.1 h
  exact hf a t b u hft

/-- The last part may rely on what the first part returns. -/
theorem bind_of (hx : Returns P x) (hf : ∀ a, P a → Returns Q (f a)) : Returns Q (x >>= f) := by
  intro s b u h
  obtain ⟨a, t, hxs, hft⟩ := bind_eq_some.1 h
  exact hf a (hx s a t hxs) t b u hft

end Returns

/-! ## Relations kept by every run -/

/-- Every run relates the state before it and the state after it. -/
def Keeps (R : σ → σ → Prop) (x : StateT σ Option α) : Prop :=
  ∀ s a t, x s = some (a, t) → R s t

namespace Keeps

variable {R : σ → σ → Prop} {x : StateT σ Option α} {f : α → StateT σ Option β}

theorem fail : Keeps R (fun _ => none : StateT σ Option α) := by
  intro s a t h
  cases h

theorem pure (hrefl : ∀ s, R s s) (a : α) : Keeps R (Pure.pure a : StateT σ Option α) := by
  intro s b t h
  obtain ⟨-, rfl⟩ := pure_eq_some.1 h
  exact hrefl _

theorem get (hrefl : ∀ s, R s s) : Keeps R (MonadState.get : StateT σ Option σ) := by
  intro s a t h
  obtain ⟨-, rfl⟩ := get_eq_some.1 h
  exact hrefl _

theorem modify {g : σ → σ} (hg : ∀ s, R s (g s)) : Keeps R (modify g : StateT σ Option PUnit) := by
  intro s a t h
  rw [modify_eq_some.1 h]
  exact hg s

theorem ite {c : Prop} [Decidable c] {y : StateT σ Option α} (hx : Keeps R x) (hy : Keeps R y) :
    Keeps R (if c then x else y) := by
  split
  · exact hx
  · exact hy

theorem bind (htrans : ∀ s t u, R s t → R t u → R s u) (hx : Keeps R x) (hf : ∀ a, Keeps R (f a)) :
    Keeps R (x >>= f) := by
  intro s b u h
  obtain ⟨a, t, hxs, hft⟩ := bind_eq_some.1 h
  exact htrans s t u (hx s a t hxs) (hf a t b u hft)

theorem forM {l : List β} {g : β → StateT σ Option PUnit} (hrefl : ∀ s, R s s)
    (htrans : ∀ s t u, R s t → R t u → R s u) (hg : ∀ b, Keeps R (g b)) :
    Keeps R (l.forM g) := by
  induction l with
  | nil => exact pure hrefl _
  | cons b l ih => exact bind htrans (hg b) fun _ => ih

end Keeps

end Partial
