import SignalOS.Lib.Partial

/-!
# Computations that have a result

`StateT σ Option` read backwards: a computation has a result from a state, and the
result has a property.

* `Ends x s Q` — from `s`, `x` has a result, and it satisfies `Q`.
* `Ends.bind`, `Ends.get_bind`, `Ends.modify_bind`, `Ends.ite` — the rules for the
  constructs of a program.
* `Ends.forM` — **the loop rule**, with an invariant that speaks of the part of the
  list that is done.
* `Ends.elim` — what is proved of a computation holds of every result it has.
* `EndsUnless C x s Q` — the same, unless `C` holds and there is no result: total
  correctness where `C` is false, partial correctness where it is true.
-/

namespace Partial

variable {σ α β : Type} {s t : σ} {x : StateT σ Option α} {Q : α → σ → Prop}

/-- The computation has a result from `s`, and its value and the state after it satisfy `Q`. -/
def Ends (x : StateT σ Option α) (s : σ) (Q : α → σ → Prop) : Prop :=
  ∃ a t, x s = some (a, t) ∧ Q a t

namespace Ends

/-- What is proved of a computation holds of its result. -/
theorem elim {a : α} (h : Ends x s Q) (hx : x s = some (a, t)) : Q a t := by
  obtain ⟨b, u, hx', hQ⟩ := h
  rw [hx, Option.some.injEq, Prod.mk.injEq] at hx'
  obtain ⟨rfl, rfl⟩ := hx'
  exact hQ

theorem mono {Q' : α → σ → Prop} (h : Ends x s Q) (himp : ∀ a t, Q a t → Q' a t) :
    Ends x s Q' := by
  obtain ⟨a, t, hx, hQ⟩ := h
  exact ⟨a, t, hx, himp a t hQ⟩

theorem of_eq {a : α} (hx : x s = some (a, t)) (h : Q a t) : Ends x s Q := ⟨a, t, hx, h⟩

/-- What every run keeps holds of this one. -/
theorem and_keeps {R : σ → σ → Prop} (h : Ends x s Q) (hkeeps : Keeps R x) : Ends x s fun a t =>
    Q a t ∧ R s t := by
  obtain ⟨a, t, hx, hQ⟩ := h
  exact ⟨a, t, hx, hQ, hkeeps s a t hx⟩

/-- So does what every run returns. -/
theorem and_returns {P : α → Prop} (h : Ends x s Q) (hP : Returns P x) : Ends x s fun a t =>
    Q a t ∧ P a := by
  obtain ⟨a, t, hx, hQ⟩ := h
  exact ⟨a, t, hx, hQ, hP s a t hx⟩

/-- Two facts about one run. -/
theorem and {Q' : α → σ → Prop} (h : Ends x s Q) (h' : Ends x s Q') : Ends x s fun a t => Q a t ∧
    Q' a t := by
  obtain ⟨a, t, hx, hQ⟩ := h
  exact ⟨a, t, hx, hQ, h'.elim hx⟩

theorem pure {a : α} (h : Q a s) : Ends (Pure.pure a) s Q := ⟨a, s, rfl, h⟩

/-- **The rule of sequence.** -/
theorem bind {f : α → StateT σ Option β} {R : β → σ → Prop} (hx : Ends x s Q)
    (hf : ∀ a t, Q a t → Ends (f a) t R) : Ends (x >>= f) s R := by
  obtain ⟨a, t, hxs, hQ⟩ := hx
  obtain ⟨b, u, hfs, hR⟩ := hf a t hQ
  exact ⟨b, u, bind_eq_some.2 ⟨a, t, hxs, hfs⟩, hR⟩

theorem bind_of_eq {f : α → StateT σ Option β} {R : β → σ → Prop} {a : α} (hx : x s = some (a, t))
    (hf : Ends (f a) t R) : Ends (x >>= f) s R :=
  bind (Q := fun b u => b = a ∧ u = t) ⟨a, t, hx, rfl, rfl⟩ fun _ _ ⟨hb, hu⟩ => hb ▸ hu ▸ hf

theorem get_bind {f : σ → StateT σ Option β} {R : β → σ → Prop} (h : Ends (f s) s R) :
    Ends (get >>= f) s R := bind_of_eq rfl h

theorem modify_bind {g : σ → σ} {f : PUnit → StateT σ Option β} {R : β → σ → Prop}
    (h : Ends (f ⟨⟩) (g s) R) : Ends (modify g >>= f) s R := bind_of_eq rfl h

theorem ite {c : Prop} [Decidable c] {y : StateT σ Option α} (hx : c → Ends x s Q)
    (hy : ¬ c → Ends y s Q) : Ends (if c then x else y) s Q := by
  split
  · exact hx ‹_›
  · exact hy ‹_›

/-- **The loop rule.**  The invariant speaks of the part of the list that is done. -/
theorem forM {l : List β} {g : β → StateT σ Option PUnit} (I : List β → σ → Prop) (h : I [] s)
    (hg : ∀ done b rest t, l = done ++ b :: rest → I done t →
      Ends (g b) t fun _ u => I (done ++ [b]) u) :
    Ends (l.forM g) s fun _ t => I l t := by
  -- the part that is done moves from the front of the list
  suffices hrest : ∀ rest done t, l = done ++ rest → I done t →
      Ends (rest.forM g) t fun _ u => I l u by
    exact hrest l [] s rfl h
  intro rest
  induction rest with
  | nil =>
    intro done t hl hI
    rw [List.append_nil] at hl
    exact pure (hl ▸ hI)
  | cons b rest ih =>
    intro done t hl hI
    refine bind (hg done b rest t hl hI) fun _ u hu => ?_
    exact ih (done ++ [b]) u (by rw [hl, List.append_assoc]; rfl) hu

end Ends

/-- From `s` the computation has a result with the property, unless `C` holds and it has none. -/
def EndsUnless (C : Prop) (x : StateT σ Option α) (s : σ) (Q : α → σ → Prop) : Prop :=
  (C ∧ x s = none) ∨ Ends x s Q

theorem Ends.unless (C : Prop) (h : Ends x s Q) : EndsUnless C x s Q := .inr h

namespace EndsUnless

variable {C : Prop}

theorem elim {a : α} (h : EndsUnless C x s Q) (hx : x s = some (a, t)) : Q a t := by
  rcases h with ⟨-, hnone⟩ | h
  · rw [hnone] at hx
    exact absurd hx (by simp)
  · exact h.elim hx

theorem total (h : EndsUnless C x s Q) (hC : ¬ C) : Ends x s Q :=
  h.resolve_left fun hnone => hC hnone.1

/-- Where there is no result, `C` has to hold. -/
theorem fail (hC : C) (hx : x s = none) : EndsUnless C x s Q := .inl ⟨hC, hx⟩

theorem mono {Q' : α → σ → Prop} (h : EndsUnless C x s Q) (himp : ∀ a t, Q a t → Q' a t) :
    EndsUnless C x s Q' := h.imp_right fun hends => hends.mono himp

theorem pure {a : α} (h : Q a s) : EndsUnless C (Pure.pure a) s Q := (Ends.pure h).unless C

theorem bind {f : α → StateT σ Option β} {R : β → σ → Prop} (hx : EndsUnless C x s Q)
    (hf : ∀ a t, Q a t → EndsUnless C (f a) t R) : EndsUnless C (x >>= f) s R := by
  rcases hx with ⟨hC, hnone⟩ | ⟨a, t, hxs, hQ⟩
  · refine .inl ⟨hC, ?_⟩
    show (x s).bind _ = none
    rw [hnone]
    rfl
  · have hrun : (x >>= f) s = f a t := by
      show (x s).bind _ = _
      rw [hxs]
      rfl
    rcases hf a t hQ with ⟨hC, hnone⟩ | ⟨b, u, hfs, hR⟩
    · exact .inl ⟨hC, hrun.trans hnone⟩
    · exact .inr ⟨b, u, hrun.trans hfs, hR⟩

theorem bind_of_eq {f : α → StateT σ Option β} {R : β → σ → Prop} {a : α} (hx : x s = some (a, t))
    (hf : EndsUnless C (f a) t R) : EndsUnless C (x >>= f) s R :=
  bind (Q := fun b u => b = a ∧ u = t) (.inr ⟨a, t, hx, rfl, rfl⟩) fun _ _ ⟨hb, hu⟩ => hb ▸ hu ▸ hf

theorem ite {c : Prop} [Decidable c] {y : StateT σ Option α} (hx : c → EndsUnless C x s Q)
    (hy : ¬ c → EndsUnless C y s Q) : EndsUnless C (if c then x else y) s Q := by
  split
  · exact hx ‹_›
  · exact hy ‹_›

/-- **The loop rule** for an invariant. -/
theorem forM_keeps {l : List β} {g : β → StateT σ Option PUnit} {I : σ → Prop} (h : I s)
    (hg : ∀ b ∈ l, ∀ t, I t → EndsUnless C (g b) t fun _ u => I u) :
    EndsUnless C (l.forM g) s fun _ t => I t := by
  induction l generalizing s with
  | nil => exact pure h
  | cons b l ih =>
    refine bind (hg b List.mem_cons_self s h) fun _ u hu => ?_
    exact ih hu fun c hc => hg c (List.mem_cons_of_mem _ hc)

end EndsUnless

end Partial
