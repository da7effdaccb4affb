import Mathlib.Data.List.Basic

/-!
# Linked lists in memory

A linked list is a set of cells and a function `next` that reads, from a cell, the
address of the cell after it.

* `Path next a xs b` — from `a`, the cells met on the way to `b` are `xs`.  With `b`
  the null address it is a whole list, with `b = a` a circular one.
* `Path.congr`, `Path.relink` — a path depends only on the links of the cells on it,
  and changing the last of them moves its end.
* `Path.cut`, `Path.reach` — a circular list can be walked from any of its cells, to any
  other one.
* `Path.pred_eq` — a cell has one predecessor.
-/

namespace Links

variable {α : Type*} {next next' : α → α} {a b c x y : α} {xs ys : List α}

/-- From `a`, the cells met on the way to `b` are `xs`. -/
def Path (next : α → α) : α → List α → α → Prop
  | a, [], b => a = b
  | a, x :: xs, b => a = x ∧ Path next (next x) xs b

@[simp] theorem path_nil : Path next a [] b ↔ a = b := Iff.rfl

@[simp] theorem path_cons : Path next a (x :: xs) b ↔ a = x ∧ Path next (next x) xs b := Iff.rfl

theorem path_append : Path next a (xs ++ ys) c ↔ ∃ b, Path next a xs b ∧ Path next b ys c := by
  induction xs generalizing a with
  | nil => simp
  | cons x xs ih => simp only [List.cons_append, path_cons, ih, and_assoc, exists_and_left]

theorem Path.append (h : Path next a xs b) (h' : Path next b ys c) : Path next a (xs ++ ys) c :=
  path_append.2 ⟨b, h, h'⟩

theorem Path.congr (h : Path next a xs b) (hnext : ∀ x ∈ xs, next' x = next x) :
    Path next' a xs b := by
  induction xs generalizing a with
  | nil => exact h
  | cons x xs ih =>
    obtain ⟨rfl, htail⟩ := h
    refine ⟨rfl, ?_⟩
    rw [hnext a List.mem_cons_self]
    exact ih htail fun y hy => hnext y (List.mem_cons_of_mem _ hy)

/-- Where a path through `x` goes on. -/
theorem Path.after (h : Path next a (xs ++ x :: ys) b) : Path next (next x) ys b := by
  obtain ⟨_, -, -, htail⟩ := path_append.1 h
  exact htail

/-- A path up to one of its cells. -/
theorem Path.upto (h : Path next a (xs ++ x :: ys) b) : Path next a xs x := by
  obtain ⟨_, hhead, rfl, -⟩ := path_append.1 h
  exact hhead

/-- The end of a path moves when the link of its last cell is changed. -/
theorem Path.relink (h : Path next a (xs ++ [x]) b) (hsame : ∀ y ∈ xs, next' y = next y)
    (hx : next' x = c) :
    Path next' a (xs ++ [x]) c :=
  (h.upto.congr hsame).append ⟨rfl, hx⟩

/-- A circular list, walked from the cell behind one of its cells. -/
theorem Path.cut (h : Path next a (xs ++ x :: ys) a) : Path next (next x) (ys ++ xs) x :=
  h.after.append h.upto

/-- The cell after one that is not the last is further on in the path. -/
theorem Path.next_mem (h : Path next a (xs ++ x :: ys) b) (hys : ys ≠ []) : next x ∈ ys := by
  cases ys with
  | nil => exact absurd rfl hys
  | cons y ys =>
    obtain ⟨heq, -⟩ := h.after
    rw [heq]
    exact List.mem_cons_self

/-- In a circular list every cell is reached from every other one. -/
theorem Path.reach (h : Path next a (xs ++ x :: ys) a) (hy : y ∈ xs ++ x :: ys) :
    ∃ zs, Path next y zs x ∧ zs ⊆ ys ++ xs ∧ zs.length ≤ (ys ++ xs).length := by
  by_cases hxy : y = x
  · exact ⟨[], hxy, List.nil_subset _, Nat.zero_le _⟩
  · have hmem : y ∈ ys ++ xs := by
      rcases List.mem_append.1 hy with hy | hy
      · exact List.mem_append_right _ hy
      · exact List.mem_append_left _ ((List.mem_cons.1 hy).resolve_left hxy)
    obtain ⟨us, vs, hsplit⟩ := List.append_of_mem hmem
    have hcut := h.cut
    rw [hsplit] at hcut ⊢
    refine ⟨y :: vs, ⟨rfl, hcut.after⟩, List.subset_append_right _ _, ?_⟩
    rw [List.length_append]
    exact Nat.le_add_left _ _

/-- **A cell has one predecessor**: in a path without repetitions, the cell before it. -/
theorem Path.pred_eq (h : Path next a (xs ++ x :: ys) b) (hnodup : (xs ++ x :: ys).Nodup)
    (hb : x ≠ b)
    (hy : y ∈ xs ++ x :: ys) (hnext : next y = x) : ∃ zs, xs = zs ++ [y] := by
  obtain ⟨hfirst, hrest, hapart⟩ := List.nodup_append.1 hnodup
  have hxs : x ∉ xs := fun hx => hapart x hx x List.mem_cons_self rfl
  have hys : x ∉ ys := (List.nodup_cons.1 hrest).1
  obtain ⟨us, vs, hsplit⟩ := List.append_of_mem hy
  rw [hsplit] at h
  have htail := h.after
  rw [hnext] at htail
  cases vs with
  | nil => exact absurd htail hb
  | cons v vs =>
    obtain ⟨rfl, -⟩ := htail
    have heq : xs ++ x :: ys = (us ++ [y]) ++ x :: vs := by simpa using hsplit
    exact ⟨us, ((List.append_cons_inj_of_notMem hxs hys).1 heq).1⟩

end Links
