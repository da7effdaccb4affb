import Mathlib.Data.Finset.Card
import Mathlib.Data.List.Infix
import Mathlib.Logic.Function.Basic
import Mathlib.Order.Basic

/-!
# Radix trees in memory

Tables of entries in a memory: an entry is empty, a leaf, or points to a table.  A key is a list of
indices, one for each level from the root.

* `table`, `find` — the table that indices lead to, and the entry where the walk along a key stops.
* `Apart` — no table stands at two places of the tree.
* `table_store`, `find_store` — **a leaf that is stored to an empty entry** is found along the
  keys behind it, and nothing else changes.
* `table_link`, `find_link` — **a new empty table** that is stored to an empty entry changes no
  key.
* `missing` — the paths of a set that lead to no table; every new table is one less
  (`missing_link`). -/

namespace RadixTree

open Function (update)

/-- What an entry says. -/
inductive Kind (A : Type*) where
  | empty
  | leaf
  | table (a : A)

variable {A I E : Type*} (kind : E → Kind A)

/-- The table that indices lead to. -/
def table (mem : A → I → E) : A → List I → Option A
  | a, [] => some a
  | a, i :: is =>
    match kind (mem a i) with
    | .table b => table mem b is
    | _ => none

/-- The entry where the walk along a key stops, with the indices that are left; none if it is
empty. -/
def find (mem : A → I → E) : A → List I → Option (List I × E)
  | _, [] => none
  | a, i :: is =>
    match kind (mem a i) with
    | .empty => none
    | .leaf => some (is, mem a i)
    | .table b => if is.isEmpty then some (is, mem a i) else find mem b is

/-- No table stands at two places of the tree of a depth. -/
def Apart (mem : A → I → E) (root : A) (depth : Nat) : Prop :=
  ∀ is js b, is.length < depth → js.length < depth → table kind mem root is = some b →
    table kind mem root js = some b → is = js

/-- The paths that lead to no table. -/
def missing (mem : A → I → E) (root : A) (paths : Finset (List I)) : Finset (List I) :=
  paths.filter fun is => table kind mem root is = none

variable {kind} {mem mem' : A → I → E} {root a p : A} {is js : List I} {i : I} {e : E}
  {depth : Nat}

theorem mem_missing {paths : Finset (List I)} :
    is ∈ missing kind mem root paths ↔ is ∈ paths ∧ table kind mem root is = none :=
      Finset.mem_filter

/-! ## Walks -/

theorem table_append (h : table kind mem root is = some a) :
    table kind mem root (is ++ js) = table kind mem a js := by
  induction is generalizing root with
  | nil => rw [List.nil_append, Option.some.inj h]
  | cons j is ih =>
    rw [table] at h
    rw [List.cons_append, table]
    split at h
    · exact ih h
    · cases h

theorem find_append (h : table kind mem root is = some a) (hne : js ≠ []) :
    find kind mem root (is ++ js) = find kind mem a js := by
  induction is generalizing root with
  | nil => rw [List.nil_append, Option.some.inj h]
  | cons j is ih =>
    rw [table] at h
    rw [List.cons_append, find]
    split at h
    · rename_i b hb
      simpa [hb, hne] using ih h
    · cases h

/-- Walks depend on the entries that they pass. -/
theorem table_congr (h : ∀ pre j post b, js = pre ++ j :: post → table kind mem root pre = some b →
    mem' b j = mem b j) :
    table kind mem' root js = table kind mem root js := by
  induction js generalizing root with
  | nil => rfl
  | cons j js ih =>
    rw [table, table, h [] j js root rfl rfl]
    split
    · rename_i b hb
      refine ih fun pre k post c hjs hc => h (j :: pre) k post c (by rw [hjs]; rfl) ?_
      rw [table, hb]
      exact hc
    · rfl

theorem find_congr (h : ∀ pre j post b, js = pre ++ j :: post → table kind mem root pre = some b →
    mem' b j = mem b j) :
    find kind mem' root js = find kind mem root js := by
  induction js generalizing root with
  | nil => rfl
  | cons j js ih =>
    rw [find, find, h [] j js root rfl rfl]
    split
    · rfl
    · rfl
    · rename_i b hb
      rw [ih fun pre k post c hjs hc => h (j :: pre) k post c (by rw [hjs]; rfl)
        (by rw [table, hb]; exact hc)]

/-- The walk along a key that ends behind an empty entry finds nothing. -/
theorem find_of_empty (ht : table kind mem root is = some a) (he : kind (mem a i) = .empty)
    (rest : List I) :
    find kind mem root (is ++ i :: rest) = none := by
  rw [find_append ht (List.cons_ne_nil _ _), find, he]

theorem table_of_empty (ht : table kind mem root is = some a) (he : kind (mem a i) = .empty)
    (rest : List I) :
    table kind mem root (is ++ i :: rest) = none := by
  rw [table_append ht, table, he]

theorem Apart.congr (hapart : Apart kind mem root depth)
    (htable : ∀ js, js.length < depth → table kind mem' root js = table kind mem root js) :
    Apart kind mem' root depth := by
  intro js ks b hjs hks hb hb'
  rw [htable js hjs] at hb
  rw [htable ks hks] at hb'
  exact hapart js ks b hjs hks hb hb'

/-- Where a walk finds nothing, it passed no leaf. -/
theorem not_leaf_of_find (ht : table kind mem root is = some a) {rest : List I}
    (hnone : find kind mem root (is ++ i :: rest) = none) : kind (mem a i) ≠ .leaf := by
  intro hleaf
  rw [find_append ht (List.cons_ne_nil _ _), find, hleaf] at hnone
  cases hnone

/-- Where a whole walk finds nothing, its last entry is empty. -/
theorem empty_of_find (ht : table kind mem root is = some a)
    (hnone : find kind mem root (is ++ [i]) = none) :
    kind (mem a i) = .empty := by
  rw [find_append ht (List.cons_ne_nil _ _), find] at hnone
  split at hnone
  · assumption
  · cases hnone
  · cases hnone

variable [DecidableEq A] [DecidableEq I]

/-! ## Storing an entry -/

/-- Walks that do not pass the entry are not changed by a store to it. -/
theorem congr_store (hapart : Apart kind mem root depth) (ht : table kind mem root is = some a)
    (hdepth : is.length < depth)
    (hjs : js.length ≤ depth) (hpre : ¬ is ++ [i] <+: js) :
    ∀ pre j post b, js = pre ++ j :: post → table kind mem root pre = some b →
      update mem a (update (mem a) i e) b j = mem b j := by
  rintro pre j post b rfl hb
  by_cases hba : b = a
  · subst hba
    obtain rfl : pre = is := hapart pre is b (by simp at hjs; omega) hdepth hb ht
    have hj : j ≠ i := by
      rintro rfl
      exact hpre ⟨post, by simp⟩
    rw [Function.update_self, Function.update_of_ne hj]
  · rw [Function.update_of_ne hba]

/-- The way to the table of the entry is not changed either. -/
theorem table_update (hapart : Apart kind mem root depth) (ht : table kind mem root is = some a)
    (hdepth : is.length < depth) : table kind (update mem a (update (mem a) i e)) root is =
    some a := by
  rw [← ht]
  refine table_congr (congr_store hapart ht hdepth hdepth.le fun hpre => ?_)
  have hlen := hpre.length_le
  rw [List.length_append, List.length_singleton] at hlen
  omega

section Leaf

variable (hapart : Apart kind mem root depth) (ht : table kind mem root is = some a)
  (hdepth : is.length < depth)
  (hempty : kind (mem a i) = .empty) (hleaf : kind e = .leaf)

include hapart ht hdepth hempty hleaf

theorem table_store (hjs : js.length < depth) :
    table kind (update mem a (update (mem a) i e)) root js = table kind mem root js := by
  by_cases hpre : is ++ [i] <+: js
  · obtain ⟨rest, rfl⟩ := hpre
    rw [List.append_assoc, List.singleton_append, table_of_empty ht hempty,
      table_append (table_update hapart ht hdepth), table, Function.update_self,
        Function.update_self, hleaf]
  · exact table_congr (congr_store hapart ht hdepth hjs.le hpre)

omit hempty in
/-- **The leaf is found along the keys behind its entry.** -/
theorem find_store (hjs : js.length = depth) :
    find kind (update mem a (update (mem a) i e)) root js =
    if is ++ [i] <+: js then some (js.drop (is.length + 1), e) else find kind mem root js := by
  split
  · rename_i hpre
    obtain ⟨rest, rfl⟩ := hpre
    rw [List.append_assoc, List.singleton_append,
      find_append (table_update hapart ht hdepth) (List.cons_ne_nil _ _), find,
        Function.update_self,
      Function.update_self, hleaf]
    simp
  · rename_i hpre
    exact find_congr (congr_store hapart ht hdepth hjs.le hpre)

end Leaf

/-! ## A new table -/

section Link

variable {none : E} (hapart : Apart kind mem root depth)
  (hfresh : ∀ is, is.length < depth → table kind mem root is ≠ some p)
  (ht : table kind mem root is = some a) (hdepth : is.length + 1 < depth)
    (hempty : kind (mem a i) = .empty)
  (hnone : kind none = .empty) (he : kind e = .table p)

omit [DecidableEq I] in
include hfresh in
/-- Walks do not pass a fresh table. -/
theorem congr_fresh {t : I → E} (hjs : js.length ≤ depth) :
    ∀ pre j post b, js = pre ++ j :: post → table kind mem root pre = some b →
      update mem p t b j = mem b j := by
  rintro pre j post b rfl hb
  rw [Function.update_of_ne]
  rintro rfl
  exact hfresh pre (by simp at hjs; omega) hb

/-- Memory with an empty table at `p` that the entry points to. -/
def link (mem : A → I → E) (p : A) (none : E) (a : A) (i : I) (e : E) : A → I → E :=
  update (update mem p fun _ => none) a (update (update mem p (fun _ => none) a) i e)

theorem link_apply (hpa : a ≠ p) (b : A) (j : I) :
    link mem p none a i e b j = if b = a ∧ j = i then e else if b = p then none else mem b j := by
  rw [link]
  by_cases hba : b = a
  · subst hba
    rw [Function.update_self, Function.update_apply, Function.update_of_ne hpa]
    simp [hpa]
  · have hno : ¬ (b = a ∧ j = i) := fun hand => hba hand.1
    rw [Function.update_of_ne hba, Function.update_apply, if_neg hno]
    split
    · rfl
    · rfl

include hapart hfresh ht hdepth hempty hnone he

theorem table_link (hjs : js.length < depth) :
    table kind (link mem p none a i e) root js = if js = is ++ [i] then some p
      else table kind mem root js := by
  set mem₁ := update mem p fun _ => none with hmem₁
  have htable₁ (js : List I) (hjs : js.length < depth) :
      table kind mem₁ root js = table kind mem root js :=
    table_congr (congr_fresh hfresh hjs.le)
  have hapart₁ : Apart kind mem₁ root depth := hapart.congr htable₁
  have ht₁ : table kind mem₁ root is = some a := (htable₁ is (by omega)).trans ht
  have hpa : a ≠ p := fun h => hfresh is (by omega) (h ▸ ht)
  by_cases hpre : is ++ [i] <+: js
  · obtain ⟨rest, rfl⟩ := hpre
    rw [link, List.append_assoc, List.singleton_append,
      table_append (table_update hapart₁ ht₁ (by omega)), table,
      Function.update_self, Function.update_self, he]
    cases rest with
    | nil => exact (if_pos (by simp)).symm
    | cons j rest =>
      rw [if_neg (by simp), table_of_empty ht hempty]
      show table kind _ p (j :: rest) = _
      rw [table, Function.update_of_ne hpa.symm, hmem₁, Function.update_self, hnone]
  · have hne : js ≠ is ++ [i] := by
      rintro rfl
      exact hpre List.prefix_rfl
    rw [if_neg hne, link,
      table_congr (congr_store hapart₁ ht₁ (by omega) hjs.le hpre), htable₁ js hjs]

/-- **A new empty table changes no key.** -/
theorem find_link (hjs : js.length = depth) :
    find kind (link mem p none a i e) root js = find kind mem root js := by
  set mem₁ := update mem p fun _ => none with hmem₁
  have htable₁ (js : List I) (hjs : js.length < depth) :
      table kind mem₁ root js = table kind mem root js :=
    table_congr (congr_fresh hfresh hjs.le)
  have hfind₁ : find kind mem₁ root js = find kind mem root js :=
    find_congr (congr_fresh hfresh hjs.le)
  have hapart₁ : Apart kind mem₁ root depth := hapart.congr htable₁
  have ht₁ : table kind mem₁ root is = some a := (htable₁ is (by omega)).trans ht
  have hpa : a ≠ p := fun h => hfresh is (by omega) (h ▸ ht)
  by_cases hpre : is ++ [i] <+: js
  · obtain ⟨rest, rfl⟩ := hpre
    cases rest with
    | nil => simp at hjs; omega
    | cons j rest =>
      rw [link, List.append_assoc, List.singleton_append, find_of_empty ht hempty,
        find_append (table_update hapart₁ ht₁ (by omega)) (List.cons_ne_nil _ _), find,
          Function.update_self,
        Function.update_self, he]
      show find kind _ p (j :: rest) = _
      rw [find, Function.update_of_ne hpa.symm, hmem₁, Function.update_self, hnone]
  · rw [link, find_congr (congr_store hapart₁ ht₁ (by omega) hjs.le hpre), hfind₁]

theorem Apart.link : Apart kind (link mem p none a i e) root depth := by
  intro js ks b hjs hks hb hb'
  rw [table_link hapart hfresh ht hdepth hempty hnone he hjs] at hb
  rw [table_link hapart hfresh ht hdepth hempty hnone he hks] at hb'
  split at hb <;> split at hb'
  · rename_i h h'
    exact h.trans h'.symm
  · exact absurd (Option.some.inj hb ▸ hb') (hfresh ks hks)
  · exact absurd (Option.some.inj hb' ▸ hb) (hfresh js hjs)
  · exact hapart js ks b hjs hks hb hb'

/-- One path less leads nowhere. -/
theorem missing_link [DecidableEq (List I)] {paths : Finset (List I)}
    (hpaths : ∀ js ∈ paths, js.length < depth)
    (hmem : is ++ [i] ∈ paths) :
    (missing kind (link mem p none a i e) root paths).card + 1 =
      (missing kind mem root paths).card := by
  have herase : missing kind (link mem p none a i e) root paths =
      (missing kind mem root paths).erase (is ++ [i]) := by
    ext js
    rw [Finset.mem_erase, mem_missing, mem_missing]
    constructor
    · rintro ⟨hjs, hno⟩
      rw [table_link hapart hfresh ht hdepth hempty hnone he (hpaths js hjs)] at hno
      split at hno
      · cases hno
      · exact ⟨‹_›, hjs, hno⟩
    · rintro ⟨hne, hjs, hno⟩
      rw [table_link hapart hfresh ht hdepth hempty hnone he (hpaths js hjs), if_neg hne]
      exact ⟨hjs, hno⟩
  have hin : is ++ [i] ∈ missing kind mem root paths :=
    mem_missing.2 ⟨hmem, table_of_empty ht hempty []⟩
  rw [herase, Finset.card_erase_add_one hin]

end Link

end RadixTree
