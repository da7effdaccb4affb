import Mathlib.Data.List.Basic
import Mathlib.Data.List.Induction

/-!
# Runs of a partial step function

A system is given by a step function `step : σ → α → Option σ`: the state after
an action, or `none` when the action cannot be taken.  This file has the runs
of such a system and the rules by which an invariant of one step becomes a fact
about whole runs.

* `run`, `trace` — perform a list of actions; the list of the states in which
  they are taken, each with its action.
* `Along` — every step of a run meets a condition on the state before it and
  the action.
* `run_induct` — **the invariant rule**: what every step that meets the
  condition preserves holds at the end of every run along the condition.
* `run_induct_history` — the same for an invariant that speaks of the actions so far.
* `Reachable` — the states some run leads to.
-/

namespace Runs

variable {σ α : Type*}

/-- Perform a list of actions; `none` as soon as one cannot be taken. -/
def run (step : σ → α → Option σ) (s : σ) : List α → Option σ
  | [] => some s
  | a :: as => (step s a).bind fun t => run step t as

/-- The states in which the actions of a list are taken, each with its action. -/
def trace (step : σ → α → Option σ) (s : σ) : List α → List (σ × α)
  | [] => []
  | a :: as => (s, a) :: ((step s a).map fun t => trace step t as).getD []

/-- Every step of the run meets `ok`, a condition on the state before the step
and the action taken. -/
def Along (step : σ → α → Option σ) (ok : σ → α → Prop) (s : σ) (as : List α) : Prop :=
  ∀ p ∈ trace step s as, ok p.1 p.2

/-- The states that runs from `init` lead to. -/
def Reachable (step : σ → α → Option σ) (init s : σ) : Prop :=
  ∃ as, run step init as = some s

variable {step : σ → α → Option σ} {ok : σ → α → Prop} {s t u : σ} {a : α} {as bs : List α}

@[simp] theorem run_nil : run step s [] = some s := rfl

theorem run_cons : run step s (a :: as) = (step s a).bind fun t => run step t as := rfl

@[simp] theorem trace_nil : trace step s [] = [] := rfl

theorem run_cons_eq_some :
    run step s (a :: as) = some u ↔ ∃ t, step s a = some t ∧ run step t as = some u := by
  rw [run_cons, Option.bind_eq_some_iff]

theorem trace_cons_of_step (h : step s a = some t) :
    trace step s (a :: as) = (s, a) :: trace step t as := by
  simp [trace, h]

theorem run_append : run step s (as ++ bs) = (run step s as).bind fun t => run step t bs := by
  induction as generalizing s with
  | nil => rfl
  | cons a as ih =>
    rw [List.cons_append, run_cons, run_cons]
    cases step s a with
    | none => rfl
    | some t => simpa using ih

theorem run_append_eq_some :
    run step s (as ++ bs) = some u ↔ ∃ t, run step s as = some t ∧ run step t bs = some u := by
  rw [run_append, Option.bind_eq_some_iff]

theorem run_concat (hrun : run step s as = some t) (hstep : step t a = some u) :
    run step s (as ++ [a]) = some u := by
  rw [run_append, hrun]
  simp [run_cons, hstep]

theorem run_concat_eq_some :
    run step s (as ++ [a]) = some u ↔ ∃ t, run step s as = some t ∧ step t a = some u := by
  simp only [run_append_eq_some, run_cons_eq_some, run_nil, Option.some.injEq, exists_eq_right]

theorem trace_singleton : trace step s [a] = [(s, a)] := by
  rw [trace]
  cases step s a <;> rfl

theorem trace_append (hrun : run step s as = some t) :
    trace step s (as ++ bs) = trace step s as ++ trace step t bs := by
  induction as generalizing s with
  | nil => simp only [run_nil, Option.some.injEq] at hrun; simp [hrun]
  | cons a as ih =>
    obtain ⟨v, hv, hrest⟩ := run_cons_eq_some.1 hrun
    rw [List.cons_append, trace_cons_of_step hv, trace_cons_of_step hv, ih hrest, List.cons_append]

/-- What is read off the actions of a run, one action later. -/
theorem filterMap_trace_concat {β : Type*} (f : σ × α → Option β) (hrun : run step s as = some t) :
    (trace step s (as ++ [a])).filterMap f = (trace step s as).filterMap f ++
      (f (t, a)).toList := by
  rw [trace_append hrun, List.filterMap_append, trace_singleton, List.filterMap_cons]
  cases f (t, a) <;> rfl

/-- What is folded over the actions of a run, one action later. -/
theorem foldl_trace_concat {β : Type*} (f : β → σ × α → β) (b : β)
    (hrun : run step s as = some t) :
    (trace step s (as ++ [a])).foldl f b = f ((trace step s as).foldl f b) (t, a) := by
  rw [trace_append hrun, List.foldl_append, trace_singleton, List.foldl_cons, List.foldl_nil]

theorem along_cons (h : step s a = some t) :
    Along step ok s (a :: as) ↔ ok s a ∧ Along step ok t as := by
  simp [Along, trace_cons_of_step h]

theorem along_append (hrun : run step s as = some t) :
    Along step ok s (as ++ bs) ↔ Along step ok s as ∧ Along step ok t bs := by
  simp only [Along, trace_append hrun, List.mem_append, or_imp, forall_and]

instance [∀ s a, Decidable (ok s a)] : Decidable (Along step ok s as) :=
  inferInstanceAs (Decidable (∀ p ∈ _, _))

theorem along_true : Along step (fun _ _ => True) s as := fun _ _ => trivial

theorem Along.mono {ok' : σ → α → Prop} (h : Along step ok s as)
    (himp : ∀ t a, ok t a → ok' t a) : Along step ok' s as :=
  fun p hp => himp p.1 p.2 (h p hp)

/-! ## The invariant rule -/

/-- **The invariant rule.**  What every step along the condition preserves holds
at the end of every run along the condition. -/
theorem run_induct {I : σ → Prop} (hstep : ∀ s a t, I s → ok s a → step s a = some t → I t)
    (hs : I s) (hrun : run step s as = some t) (hok : Along step ok s as) : I t := by
  induction as generalizing s with
  | nil => simp only [run_nil, Option.some.injEq] at hrun; exact hrun ▸ hs
  | cons a as ih =>
    obtain ⟨v, hv, hrest⟩ := run_cons_eq_some.1 hrun
    obtain ⟨ha, has⟩ := (along_cons hv).1 hok
    exact ih (hstep s a v hs ha hv) hrest has

/-- The invariant rule for an invariant that speaks of the actions so far. -/
theorem run_induct_history {I : List α → σ → Prop}
    (hstep : ∀ as t a u, run step s as = some t → I as t → ok t a → step t a = some u →
      I (as ++ [a]) u)
    (hs : I [] s) (hrun : run step s as = some t) (hok : Along step ok s as) : I as t := by
  induction as using List.reverseRecOn generalizing t with
  | nil => simp only [run_nil, Option.some.injEq] at hrun; exact hrun ▸ hs
  | append_singleton as a ih =>
    obtain ⟨v, hv, hlast⟩ := run_concat_eq_some.1 hrun
    obtain ⟨has, ha⟩ := (along_append hv).1 hok
    have hoka : ok v a := ha (v, a) (by simp [trace_singleton])
    exact hstep as v a t hv (ih hv has) hoka hlast

/-! ## Reachable states -/

theorem Reachable.refl : Reachable step s s := ⟨[], rfl⟩

theorem Reachable.snoc (h : Reachable step s t) (hstep : step t a = some u) :
    Reachable step s u := by
  obtain ⟨as, has⟩ := h
  exact ⟨as ++ [a], run_concat has hstep⟩

theorem Reachable.append (h : Reachable step s t) (hrun : run step t as = some u) :
    Reachable step s u := by
  obtain ⟨bs, hbs⟩ := h
  exact ⟨bs ++ as, run_append_eq_some.2 ⟨t, hbs, hrun⟩⟩

/-- An invariant of every step holds in every reachable state. -/
theorem Reachable.induct {I : σ → Prop} (h : Reachable step s t) (hs : I s)
    (hstep : ∀ s a t, I s → step s a = some t → I t) : I t := by
  obtain ⟨as, has⟩ := h
  exact run_induct (fun s a t hi _ => hstep s a t hi) hs has along_true

end Runs
