import SignalOS.Kernel.Step
import Mathlib.Data.List.Nodup

/-!
# Program lookup

`get_elf` takes the first entry of the table whose name starts with the name it is given.

* `strncmp_eq_zero` — what `strncmp` compares.
* `getElf_eq_some` — **the entry that `get_elf` returns**.
* `getElf_exact` — **when lookup is by exact name**.
* `getElf_sorted` — the table that `pack.py` writes.
-/

namespace SignalOS

open Partial

/-- Strings without their NUL have no NUL in them. -/
theorem strncmp_eq_zero {p q : List Byte} (hp : 0 ∉ p) (hq : 0 ∉ q) (n : Nat) :
    strncmp p q n = 0 ↔ p.take n = q.take n := by
  induction n generalizing p q with
  | zero => simp [strncmp]
  | succ n ih =>
    cases p with
    | nil =>
      cases q with
      | nil => simp [strncmp]
      | cons b q =>
        rw [strncmp, List.headD_cons, List.take_nil, List.take_succ_cons]
        refine iff_of_false (fun h => hq ?_) (by simp)
        have hb : b = 0 := BitVec.eq_of_toNat_eq (Int.ofNat_eq_zero.1 (Int.neg_eq_zero.1 h))
        rw [hb]
        exact List.mem_cons_self
    | cons a p =>
      have ha : a ≠ 0 := fun h => hp (h ▸ List.mem_cons_self)
      cases q with
      | nil =>
        rw [strncmp, List.headD_nil, if_neg ha]
        refine iff_of_false (fun h => ha (BitVec.eq_of_toNat_eq ?_)) (by simp)
        exact Int.ofNat_inj.1 (sub_eq_zero.1 h)
      | cons b q =>
        rw [strncmp, List.headD_cons, List.tail_cons, List.take_succ_cons, List.take_succ_cons,
          List.cons.injEq]
        by_cases hab : a = b
        · rw [if_pos hab, ih (fun h => hp (List.mem_cons_of_mem _ h))
            (fun h => hq (List.mem_cons_of_mem _ h))]
          exact ⟨fun h => ⟨hab, h⟩, And.right⟩
        · rw [if_neg hab]
          refine iff_of_false (fun h => hab (BitVec.eq_of_toNat_eq ?_)) fun h => hab h.1
          exact Int.ofNat_inj.1 (sub_eq_zero.1 h)

/-- The comparison of `get_elf`. -/
theorem strncmp_name {name q : List Byte} (hname : 0 ∉ name) (hq : 0 ∉ q) :
    strncmp name q name.length = 0 ↔ name <+: q := by
  rw [strncmp_eq_zero hname hq, List.take_length, List.prefix_iff_eq_take]

/-- A table of programs: the names are distinct, and strings that are not empty. -/
structure AppTable (apps : List UserApp) : Prop where
  nonempty : ∀ app ∈ apps, app.name ≠ []
  string : ∀ app ∈ apps, 0 ∉ app.name
  distinct : (apps.map UserApp.name).Nodup

section Table

variable {apps : List UserApp} {name : List Byte} {app : UserApp} {k : Kernel}

theorem AppTable.eq_of_name (h : AppTable apps) {other : UserApp} (happ : app ∈ apps)
    (hother : other ∈ apps)
    (hname : app.name = other.name) : app = other :=
  List.inj_on_of_nodup_map h.distinct happ hother hname

/-- **`get_elf` returns the first entry whose name starts with the name.** -/
theorem getElf_eq_some (h : AppTable apps) (hname : 0 ∉ name) :
    getElf apps name = some app ↔ name ≠ [] ∧ ∃ before after, apps = before ++ app :: after ∧
      name <+: app.name ∧ ∀ other ∈ before, ¬ name <+: other.name := by
  rw [getElf]
  split
  · rename_i hempty
    rw [List.length_eq_zero_iff] at hempty
    exact iff_of_false (by simp) fun h => h.1 hempty
  · rename_i hempty
    rw [List.length_eq_zero_iff] at hempty
    rw [List.find?_eq_some_iff_append]
    simp only [decide_eq_true_eq, Bool.not_eq_true', decide_eq_false_iff_not]
    constructor
    · rintro ⟨hmatch, before, after, rfl, hbefore⟩
      rw [strncmp_name hname (h.string app (by simp))] at hmatch
      refine ⟨hempty, before, after, rfl, hmatch, fun other hother => ?_⟩
      rw [← strncmp_name hname (h.string other (by simp [hother]))]
      exact hbefore other hother
    · rintro ⟨-, before, after, rfl, hmatch, hbefore⟩
      rw [strncmp_name hname (h.string app (by simp))]
      refine ⟨hmatch, before, after, rfl, fun other hother => ?_⟩
      rw [strncmp_name hname (h.string other (by simp [hother]))]
      exact hbefore other hother

/-- It finds an entry if there is one whose name starts with the name. -/
theorem getElf_isSome (h : AppTable apps) (hname : 0 ∉ name) (hempty : name ≠ [])
    (happ : app ∈ apps)
    (hstarts : name <+: app.name) : ∃ found, getElf apps name = some found := by
  rw [getElf, if_neg (fun hlen => hempty (List.length_eq_zero_iff.1 hlen)),
    ← Option.isSome_iff_exists, List.find?_isSome]
  exact ⟨app, happ, decide_eq_true ((strncmp_name hname (h.string app happ)).2 hstarts)⟩

/-- Before each longer name that starts with `name` there is an entry of that name. -/
def FirstOfPrefix (apps : List UserApp) (name : List Byte) : Prop :=
  ∀ before app after, apps = before ++ app :: after → name <+: app.name → app.name ≠ name →
    ∃ other ∈ before, other.name = name

/-- Lookup is by exact name, and `exec` of another name fails. -/
structure ExactLookup (k : Kernel) (name : List Byte) : Prop where
  lookup : ∀ app, getElf k.userApps name = some app ↔ app ∈ k.userApps ∧ app.name = name
  exec : (∃ app ∈ k.userApps, name <+: app.name) → (∀ app ∈ k.userApps, app.name ≠ name) →
    ∀ curr args, exec curr name args k = some (-ENOENT, k)

theorem lookup_of_first (h : AppTable apps) (hname : 0 ∉ name)
    (hfirst : name = [] ∨ FirstOfPrefix apps name) :
    getElf apps name = some app ↔ app ∈ apps ∧ app.name = name := by
  have hsound {app : UserApp} (hget : getElf apps name = some app) : app ∈ apps ∧
      app.name = name := by
    obtain ⟨hempty, before, after, happs, hstarts, hbefore⟩ := (getElf_eq_some h hname).1 hget
    refine ⟨by simp [happs], ?_⟩
    by_contra hne
    obtain ⟨other, hother, rfl⟩ := hfirst.resolve_left hempty before app after happs hstarts hne
    exact hbefore other hother List.prefix_rfl
  refine ⟨hsound, fun ⟨happ, heq⟩ => ?_⟩
  have hempty : name ≠ [] := heq ▸ h.nonempty app happ
  obtain ⟨found, hfound⟩ := getElf_isSome h hname hempty happ (heq ▸ List.prefix_rfl)
  obtain ⟨hmem, hfoundName⟩ := hsound hfound
  rw [hfound, h.eq_of_name hmem happ (hfoundName.trans heq.symm)]

theorem first_of_lookup (h : AppTable apps) (hname : 0 ∉ name) (hempty : name ≠ [])
    (hlookup : ∀ app, getElf apps name = some app → app.name = name) :
    FirstOfPrefix apps name := by
  intro before app after happs hstarts hne
  obtain ⟨found, hfound⟩ := @getElf_isSome _ _ app h hname hempty (by simp [happs]) hstarts
  obtain ⟨-, before', after', happs', -, hbefore'⟩ := (getElf_eq_some h hname).1 hfound
  refine ⟨found, ?_, hlookup found hfound⟩
  -- the entry that was found does not come after `app`
  rw [happs] at happs'
  rcases List.append_eq_append_iff.1 happs' with ⟨mid, rfl, hmid⟩ | ⟨mid, rfl, hmid⟩
  · cases mid with
    | nil =>
      obtain ⟨rfl, -⟩ := List.cons.inj hmid
      exact absurd (hlookup app hfound) hne
    | cons other mid =>
      obtain ⟨rfl, -⟩ := List.cons.inj hmid
      exact absurd hstarts (hbefore' app (by simp))
  · cases mid with
    | nil =>
      obtain ⟨rfl, -⟩ := List.cons.inj hmid
      exact absurd (hlookup found hfound) hne
    | cons other mid =>
      obtain ⟨rfl, -⟩ := List.cons.inj hmid
      simp

/-- **Lookup is by exact name if and only if no longer name that starts with it comes first.** -/
theorem getElf_exact (htable : AppTable k.userApps) (hname : 0 ∉ name) :
    ExactLookup k name ↔ name = [] ∨ FirstOfPrefix k.userApps name := by
  constructor
  · intro h
    by_cases hempty : name = []
    · exact .inl hempty
    · exact .inr (first_of_lookup htable hname hempty fun app hget => ((h.lookup app).1 hget).2)
  · intro hfirst
    have hlookup (app : UserApp) := @lookup_of_first _ _ app htable hname hfirst
    refine ⟨hlookup, fun _ hnone curr args => ?_⟩
    have hget : getElf k.userApps name = none := by
      rw [Option.eq_none_iff_forall_ne_some]
      intro app hget
      obtain ⟨happ, heq⟩ := (hlookup app).1 hget
      exact hnone app happ heq
    simp only [exec, get_bind, hget]
    rfl

/-- In a sorted table every program is found by its name. -/
theorem getElf_sorted (h : AppTable apps) (hsorted : apps.Pairwise fun a b => a.name < b.name)
    (happ : app ∈ apps) :
    getElf apps app.name = some app := by
  refine (lookup_of_first h (h.string app happ) (.inr ?_)).2 ⟨happ, rfl⟩
  rintro before longer after rfl hstarts hne
  rw [List.mem_append, List.mem_cons] at happ
  rcases happ with hbefore | rfl | hafter
  · exact ⟨app, hbefore, rfl⟩
  · exact absurd rfl hne
  · have hlt := List.rel_of_pairwise_cons (List.pairwise_append.1 hsorted).2.1 hafter
    exact absurd hlt (List.not_lt.2 hstarts.le)

end Table

/-- A table with the programs `sh` and `signal`. -/
def twoPrograms : List UserApp := [noCode [115, 104], noCode [115, 105, 103, 110, 97, 108]]

theorem appTable_twoPrograms : AppTable twoPrograms := ⟨by decide, by decide, by decide⟩

/-- `sh` is looked up by its name. -/
theorem getElf_exact_sh :
    ExactLookup (boot { initMachine with userApps := twoPrograms }) [115, 104] := by
  refine (getElf_exact appTable_twoPrograms (by decide)).2 (.inr ?_)
  rintro before app after happs hstarts hne
  have happ : app ∈ twoPrograms := by
    have hmem : app ∈ before ++ app :: after := by simp
    rwa [← happs] at hmem
  have hnames : ∀ app ∈ twoPrograms, [115, 104] <+: app.name → app.name = [115, 104] := by decide
  exact absurd (hnames app happ hstarts) hne

/-- `s` finds `sh`. -/
theorem getElf_finds_prefix :
    ¬ ExactLookup (boot { initMachine with userApps := twoPrograms }) [115] := by
  intro h
  have hget : getElf twoPrograms [115] = some (noCode [115, 104]) := rfl
  have hname := ((h.lookup _).1 hget).2
  exact absurd hname (by decide)

end SignalOS
