import Mathlib.Data.Fintype.Sigma
import Mathlib.Data.Fintype.Sum
import Mathlib.Tactic.DeriveFintype
import SignalOS.Vm.Mm

/-!
# Page tables as trees

The tables of an address space by their place in the tree, and its leaf entries by the
number of their page.

* `Table`, `tableAt` — the places for tables, and the page of the table at a place.
* `Vpn`, `entryAt` — virtual page numbers, and the leaf entry of a page; 0 where there
  is no table for it.
* `TablesApart` — no page is a table twice.
* `tableAt_setPte`, `entryAt_setPte` — **a store to a leaf entry changes that entry**.
* `Extended` — **a new table changes no entry**.
-/

namespace SignalOS

/-! ## Indices -/

/-- The index of an entry in a table. -/
abbrev Index := Fin 512

def Index.word (i : Index) : Uint64 := BitVec.ofNat 64 i

theorem Index.toNat_word (i : Index) : i.word.toNat = i := by
  have hi := i.isLt
  rw [word, BitVec.toNat_ofNat]
  omega

theorem Index.word_inj {i j : Index} : i.word = j.word ↔ i = j := by
  rw [← BitVec.toNat_inj, toNat_word, toNat_word, Fin.val_inj]

/-- `PX(level, va)` as an index. -/
def index (level : Nat) (va : Uint64) : Index :=
  ⟨va.toNat / 2 ^ (12 + 9 * level) % 512, Nat.mod_lt _ (by decide)⟩

theorem PX_eq (level : Nat) (va : Uint64) : PX level va = (index level va).word := by
  apply BitVec.eq_of_toNat_eq
  rw [toNat_PX, Index.toNat_word]
  rfl

/-- A virtual page number: the indices of its page on the three levels. -/
@[ext] structure Vpn where
  l2 : Index
  l1 : Index
  l0 : Index
  deriving DecidableEq, Fintype

def vpn (va : Uint64) : Vpn := ⟨index 2 va, index 1 va, index 0 va⟩

theorem PageStart.down {a : Uint64} (h : PageStart a) : PGROUNDDOWN a = a := by
  apply BitVec.eq_of_toNat_eq
  rw [PageStart] at h
  rw [toNat_PGROUNDDOWN]
  omega

/-- The number of the page of an address. -/
theorem vpn_down (va : Uint64) : vpn (PGROUNDDOWN va) = vpn va := by
  have hindex (level : Nat) (hlevel : level < 3) :
      index level (PGROUNDDOWN va) = index level va := by
    have hva := va.isLt
    rw [index, index, Fin.mk.injEq, toNat_PGROUNDDOWN]
    rcases (by omega : level = 0 ∨ level = 1 ∨ level = 2) with rfl | rfl | rfl
    · omega
    · omega
    · omega
  rw [vpn, vpn, hindex 0 (by decide), hindex 1 (by decide), hindex 2 (by decide)]

/-- Page-aligned user addresses have different numbers. -/
theorem vpn_inj {va va' : Uint64} (h : IS_USER_VA va = true) (h' : IS_USER_VA va' = true)
    (hva : PageStart va) (hva' : PageStart va') (heq : vpn va = vpn va') : va = va' := by
  have hpage : PGROUNDDOWN va = PGROUNDDOWN va' := by
    refine PGROUNDDOWN_eq_of_PX h h' fun level hlevel => ?_
    rw [PX_eq, PX_eq]
    rcases (by omega : level = 0 ∨ level = 1 ∨ level = 2) with rfl | rfl | rfl
    · exact congrArg (fun v => Index.word v.l0) heq
    · exact congrArg (fun v => Index.word v.l1) heq
    · exact congrArg (fun v => Index.word v.l2) heq
  rwa [hva.down, hva'.down] at hpage

/-! ## Tables -/

/-- The places for tables in a tree. -/
inductive Table where
  | root
  | mid (i : Index)
  | last (i j : Index)
  deriving DecidableEq, Fintype

/-- The page of the table at a place of the tree at `pgt`. -/
def tableAt (pte : Uint64 → Uint64 → Uint64) (pgt : Uint64) : Table → Option Uint64
  | .root => some pgt
  | .mid i => nextTable (pte pgt i.word)
  | .last i j => (nextTable (pte pgt i.word)).bind fun t => nextTable (pte t j.word)

/-- The leaf entry of a page; 0 where there is no table for it. -/
def entryAt (pte : Uint64 → Uint64 → Uint64) (pgt : Uint64) (v : Vpn) : Uint64 :=
  (tableAt pte pgt (.last v.l2 v.l1)).elim 0 fun t => pte t v.l0.word

variable {pte pte' : Uint64 → Uint64 → Uint64} {pgt p t e : Uint64} {v : Vpn} {x : Table}

@[simp] theorem tableAt_root : tableAt pte pgt .root = some pgt := rfl

theorem tableAt_mid (i : Index) : tableAt pte pgt (.mid i) = nextTable (pte pgt i.word) := rfl

theorem tableAt_last (i j : Index) : tableAt pte pgt (.last i j) =
    (tableAt pte pgt (.mid i)).bind fun t => nextTable (pte t j.word) := rfl

theorem slotOf_eq (pte : Uint64 → Uint64 → Uint64) (pgt va : Uint64) :
    slotOf pte pgt va = (tableAt pte pgt (.last (vpn va).l2 (vpn va).l1)).map fun t =>
      (t, (vpn va).l0.word) := by
  rw [slotOf, tableAt, PX_eq, PX_eq, PX_eq, Option.map_bind]
  rfl

/-- The tree is the same wherever its tables are. -/
theorem tableAt_congr (h : ∀ x t, tableAt pte pgt x = some t → pte' t = pte t) :
    tableAt pte' pgt = tableAt pte pgt := by
  have hroot : pte' pgt = pte pgt := h .root pgt rfl
  have hmid (i : Index) : tableAt pte' pgt (.mid i) = tableAt pte pgt (.mid i) := by
    rw [tableAt_mid, tableAt_mid, hroot]
  funext x
  cases x with
  | root => rfl
  | mid i => exact hmid i
  | last i j =>
    rw [tableAt_last, tableAt_last, hmid]
    cases hi : tableAt pte pgt (.mid i) with
    | none => rfl
    | some t => rw [Option.bind_some, Option.bind_some, h _ t hi]

theorem entryAt_congr (h : ∀ x t, tableAt pte pgt x = some t → pte' t = pte t) :
    entryAt pte' pgt = entryAt pte pgt := by
  funext v
  rw [entryAt, entryAt, tableAt_congr h]
  cases hv : tableAt pte pgt (.last v.l2 v.l1) with
  | none => rfl
  | some t => rw [Option.elim_some, Option.elim_some, h _ t hv]

/-- No page is a table twice. -/
def TablesApart (pte : Uint64 → Uint64 → Uint64) (pgt : Uint64) : Prop :=
  ∀ x y p, tableAt pte pgt x = some p → tableAt pte pgt y = some p → x = y

theorem TablesApart.ne {x y : Table} {u w : Uint64} (h : TablesApart pte pgt)
    (hx : tableAt pte pgt x = some u) (hy : tableAt pte pgt y = some w) (hxy : x ≠ y) : u ≠ w := by
  rintro rfl
  exact hxy (h _ _ _ hx hy)

/-! ## Storing a leaf entry -/

section Leaf

variable {vm : Vm} {i j k : Index}

theorem setPte_of_ne {q : Uint64} (h : q ≠ t) (a : Uint64) : (vm.setPte t a e).pte q = vm.pte q :=
  Function.update_of_ne h _ _

theorem setPte_self (a : Uint64) : (vm.setPte t a e).pte t = Function.update (vm.pte t) a e :=
  Function.update_self _ _ _

/-- A store to the last level leaves all tables where they are. -/
theorem tableAt_setPte (hapart : TablesApart vm.pte pgt)
    (ht : tableAt vm.pte pgt (.last i j) = some t) (a e : Uint64) :
    tableAt (vm.setPte t a e).pte pgt = tableAt vm.pte pgt := by
  have hroot : pgt ≠ t := hapart.ne tableAt_root ht (by simp)
  have hmid (n : Index) : tableAt (vm.setPte t a e).pte pgt (.mid n) = tableAt vm.pte pgt
      (.mid n) := by
    rw [tableAt_mid, tableAt_mid, setPte_of_ne hroot]
  funext x
  cases x with
  | root => rfl
  | mid n => exact hmid n
  | last n m =>
    rw [tableAt_last, tableAt_last, hmid]
    cases hn : tableAt vm.pte pgt (.mid n) with
    | none => rfl
    | some u =>
      have hne : u ≠ t := hapart.ne hn ht (by simp)
      rw [Option.bind_some, Option.bind_some, setPte_of_ne hne]

/-- **A store to a leaf entry changes that entry and no other.** -/
theorem entryAt_setPte (hapart : TablesApart vm.pte pgt)
    (ht : tableAt vm.pte pgt (.last i j) = some t) (k : Index) (e : Uint64) :
    entryAt (vm.setPte t k.word e).pte pgt = Function.update (entryAt vm.pte pgt) ⟨i, j, k⟩ e := by
  funext v
  rw [entryAt, tableAt_setPte hapart ht]
  by_cases hv : v = ⟨i, j, k⟩
  · subst hv
    rw [Function.update_self, ht, Option.elim_some, setPte_self, Function.update_self]
  rw [Function.update_of_ne hv, entryAt]
  cases hlast : tableAt vm.pte pgt (.last v.l2 v.l1) with
  | none => rfl
  | some u =>
    rw [Option.elim_some, Option.elim_some]
    by_cases hu : u = t
    · subst hu
      have hplace := hapart _ _ _ hlast ht
      simp only [Table.last.injEq] at hplace
      have hk : v.l0.word ≠ k.word := fun heq =>
        hv (Vpn.ext hplace.1 hplace.2 (Index.word_inj.1 heq))
      rw [setPte_self, Function.update_of_ne hk]
    · rw [setPte_of_ne hu]

end Leaf

/-! ## A new table -/

/-- The tables and entries after a new, empty table was put at a place. -/
structure Extended (pte pte' : Uint64 → Uint64 → Uint64) (pgt : Uint64) (x : Table) (p : Uint64) :
    Prop where
  none : tableAt pte pgt x = none
  tables : tableAt pte' pgt = Function.update (tableAt pte pgt) x (some p)
  entries : entryAt pte' pgt = entryAt pte pgt

/-- Memory with an empty table at `p` that an entry of the table `t` points to. -/
def Vm.link (vm : Vm) (p t a e : Uint64) : Vm := (vm.zeroTable p).setPte t a e

section Link

variable {vm : Vm} {i j : Index}

theorem link_pte_of_ne {q : Uint64} (hp : q ≠ p) (ht : q ≠ t) (a : Uint64) :
    (vm.link p t a e).pte q = vm.pte q := by
  rw [Vm.link, setPte_of_ne ht]
  exact Function.update_of_ne hp _ _

theorem link_pte_new (h : p ≠ t) (a : Uint64) : (vm.link p t a e).pte p = fun _ => 0 := by
  rw [Vm.link, setPte_of_ne h]
  exact Function.update_self _ _ _

theorem link_pte_table (h : t ≠ p) (a : Uint64) :
    (vm.link p t a e).pte t = Function.update (vm.pte t) a e := by
  rw [Vm.link, setPte_self]
  show Function.update (Function.update vm.pte p (fun _ => 0) t) a e = _
  rw [Function.update_of_ne h]

theorem nextTable_zero : nextTable 0 = none := rfl

/-- Entries are the same if every table of the last level is, where there was one, and the others
are empty. -/
theorem entryAt_of_tables (hold : ∀ i j t, tableAt pte pgt (.last i j) = some t →
      tableAt pte' pgt (.last i j) = some t ∧ pte' t = pte t)
    (hnew : ∀ i j t, tableAt pte pgt (.last i j) = none → tableAt pte' pgt (.last i j) = some t →
      pte' t = fun _ => 0) :
    entryAt pte' pgt = entryAt pte pgt := by
  funext v
  rw [entryAt, entryAt]
  cases hv : tableAt pte pgt (.last v.l2 v.l1) with
  | some t =>
    obtain ⟨hv', hsame⟩ := hold _ _ t hv
    rw [hv', Option.elim_some, Option.elim_some, hsame]
  | none =>
    cases hv' : tableAt pte' pgt (.last v.l2 v.l1) with
    | none => rfl
    | some t =>
      rw [Option.elim_some, hnew _ _ t hv hv']
      rfl

/-- **A new table below the root.** -/
theorem extended_root (hapart : TablesApart vm.pte pgt)
    (hfresh : ∀ x, tableAt vm.pte pgt x ≠ some p)
    (hnone : tableAt vm.pte pgt (.mid i) = none) (he : nextTable e = some p) :
    Extended vm.pte (vm.link p pgt i.word e).pte pgt (.mid i) p := by
  have hp : pgt ≠ p := fun h => hfresh .root (congrArg some h)
  have hroot := @link_pte_table _ _ e vm hp i.word
  have hmid (n : Index) : tableAt (vm.link p pgt i.word e).pte pgt (.mid n) =
      if n = i then some p else tableAt vm.pte pgt (.mid n) := by
    rw [tableAt_mid, hroot]
    split
    · rename_i hn
      rw [hn, Function.update_self, he]
    · rename_i hn
      rw [Function.update_of_ne (mt Index.word_inj.1 hn)]
      rfl
  have hlast (n m : Index) : tableAt (vm.link p pgt i.word e).pte pgt (.last n m) =
      tableAt vm.pte pgt (.last n m) := by
    rw [tableAt_last, tableAt_last, hmid]
    split
    · rename_i hn
      rw [hn, hnone, Option.bind_some, Option.bind_none, link_pte_new hp.symm, nextTable_zero]
    · cases hn : tableAt vm.pte pgt (.mid n) with
      | none => rfl
      | some u =>
        have hup : u ≠ p := fun h => hfresh _ (h ▸ hn)
        have hur : u ≠ pgt := hapart.ne hn tableAt_root (by simp)
        rw [Option.bind_some, Option.bind_some, link_pte_of_ne hup hur]
  refine ⟨hnone, ?_, ?_⟩
  · funext x
    cases x with
    | root => rw [Function.update_of_ne (by simp)]; rfl
    | mid n =>
      rw [hmid]
      split
      · rename_i hn
        rw [hn, Function.update_self]
      · rename_i hn
        rw [Function.update_of_ne (by simpa using hn)]
    | last n m => rw [hlast, Function.update_of_ne (by simp)]
  · refine entryAt_of_tables (fun n m u hu => ⟨(hlast n m).trans hu, ?_⟩) fun n m u hu hu' => ?_
    · exact link_pte_of_ne (fun h => hfresh _ (h ▸ hu)) (hapart.ne hu tableAt_root (by simp)) _
    · rw [hlast, hu] at hu'
      exact absurd hu' (by simp)

/-- **A new table of the last level.** -/
theorem extended_mid (hapart : TablesApart vm.pte pgt)
    (hfresh : ∀ x, tableAt vm.pte pgt x ≠ some p)
    (ht : tableAt vm.pte pgt (.mid i) = some t) (hnone : tableAt vm.pte pgt (.last i j) = none)
    (he : nextTable e = some p) :
    Extended vm.pte (vm.link p t j.word e).pte pgt (.last i j) p := by
  have htp : t ≠ p := fun h => hfresh _ (h ▸ ht)
  have hrp : pgt ≠ p := fun h => hfresh .root (congrArg some h)
  have hrt : pgt ≠ t := hapart.ne tableAt_root ht (by simp)
  have hmid (n : Index) : tableAt (vm.link p t j.word e).pte pgt (.mid n) = tableAt vm.pte pgt
      (.mid n) := by
    rw [tableAt_mid, tableAt_mid, link_pte_of_ne hrp hrt]
  have hlast (n m : Index) : tableAt (vm.link p t j.word e).pte pgt (.last n m) =
      if n = i ∧ m = j then some p else tableAt vm.pte pgt (.last n m) := by
    rw [tableAt_last, tableAt_last, hmid]
    cases hn : tableAt vm.pte pgt (.mid n) with
    | none =>
      rw [if_neg]
      · rfl
      · rintro ⟨rfl, -⟩
        rw [ht] at hn
        exact absurd hn (by simp)
    | some u =>
      have hup : u ≠ p := fun h => hfresh _ (h ▸ hn)
      rw [Option.bind_some, Option.bind_some]
      by_cases hni : n = i
      · subst hni
        obtain rfl := Option.some.inj (hn.symm.trans ht)
        rw [link_pte_table htp]
        by_cases hmj : m = j
        · rw [hmj, Function.update_self, he, if_pos ⟨rfl, rfl⟩]
        · rw [Function.update_of_ne (mt Index.word_inj.1 hmj), if_neg fun h => hmj h.2]
      · have hut : u ≠ t := hapart.ne hn ht fun h => hni (Table.mid.inj h)
        rw [link_pte_of_ne hup hut, if_neg fun h => hni h.1]
  refine ⟨hnone, ?_, ?_⟩
  · funext x
    cases x with
    | root => rw [Function.update_of_ne (by simp)]; rfl
    | mid n => rw [hmid, Function.update_of_ne (by simp)]
    | last n m =>
      rw [hlast]
      split
      · rename_i hnm
        rw [hnm.1, hnm.2, Function.update_self]
      · rename_i hnm
        rw [Function.update_of_ne (by simpa using hnm)]
  · refine entryAt_of_tables (fun n m u hu => ⟨?_, ?_⟩) fun n m u hu hu' => ?_
    · rw [hlast, if_neg]
      · exact hu
      · rintro ⟨rfl, rfl⟩
        rw [hnone] at hu
        exact absurd hu (by simp)
    · exact link_pte_of_ne (fun h => hfresh _ (h ▸ hu)) (hapart.ne hu ht (by simp)) _
    · rw [hlast] at hu'
      split at hu'
      · obtain rfl := Option.some.inj hu'
        exact link_pte_new htp.symm _
      · rw [hu] at hu'
        exact absurd hu' (by simp)

end Link

end SignalOS
