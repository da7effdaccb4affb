import Mathlib.Logic.Function.Basic

/-!
# Tables of locks

Locks with a field for their holder, and agents each of which holds at most one of them.

* `Exact` — the field of every lock names the agent that holds it.
* `Exact.take`, `Exact.drop`, `Exact.handOver` — a lock is taken, dropped, or passed on.
* `Exact.holder_unique`, `Exact.free` — what the fields say about the agents.
-/

namespace LockTable

open Function (update)

variable {L A : Type*} {owner : L → Option A} {held : A → Option L} {l : L} {a b : A}

/-- The locks name the agents that hold them. -/
def Exact (owner : L → Option A) (held : A → Option L) : Prop :=
  ∀ l a, owner l = some a ↔ held a = some l

/-- A lock has one holder. -/
theorem Exact.holder_unique (h : Exact owner held) (ha : held a = some l) (hb : held b = some l) :
    a = b :=
  Option.some.inj (((h l a).2 ha).symm.trans ((h l b).2 hb))

/-- Nobody holds a free lock. -/
theorem Exact.free (h : Exact owner held) (hfree : owner l = none) (a : A) : held a ≠ some l :=
  fun ha =>
    absurd (hfree.symm.trans ((h l a).2 ha)) (by simp)

variable [DecidableEq L] [DecidableEq A]

/-- An agent that holds nothing takes a free lock. -/
theorem Exact.take (h : Exact owner held) (hfree : owner l = none) (hnone : held a = none) :
    Exact (update owner l (some a)) (update held a (some l)) := by
  intro l' a'
  by_cases hl : l' = l
  · subst hl
    rw [Function.update_self]
    by_cases ha : a' = a
    · subst ha
      simp
    · rw [Function.update_of_ne ha]
      exact iff_of_false (fun heq => ha (Option.some.inj heq).symm) (h.free hfree a')
  · rw [Function.update_of_ne hl, h l' a']
    by_cases ha : a' = a
    · subst ha
      rw [Function.update_self, hnone]
      exact iff_of_false (by simp) fun heq => hl (Option.some.inj heq).symm
    · rw [Function.update_of_ne ha]

/-- The holder drops its lock. -/
theorem Exact.drop (h : Exact owner held) (ha : held a = some l) :
    Exact (update owner l none) (update held a none) := by
  intro l' a'
  by_cases hl : l' = l
  · subst hl
    rw [Function.update_self]
    refine iff_of_false (by simp) fun heq => ?_
    by_cases haa : a' = a
    · subst haa
      rw [Function.update_self] at heq
      cases heq
    · rw [Function.update_of_ne haa] at heq
      exact haa (h.holder_unique heq ha)
  · rw [Function.update_of_ne hl, h l' a']
    by_cases haa : a' = a
    · subst haa
      rw [Function.update_self, ha]
      exact iff_of_false (fun heq => hl (Option.some.inj heq).symm) (by simp)
    · rw [Function.update_of_ne haa]

/-- The holder passes its lock to an agent that holds nothing. -/
theorem Exact.handOver (h : Exact owner held) (ha : held a = some l) (hb : held b = none) :
    Exact (update owner l (some b)) (update (update held a none) b (some l)) := by
  have hne : b ≠ a := by
    rintro rfl
    rw [ha] at hb
    cases hb
  have hdrop := h.drop ha
  have htake := hdrop.take (Function.update_self l none owner) (by rwa [Function.update_of_ne hne])
  rwa [Function.update_idem] at htake

end LockTable
