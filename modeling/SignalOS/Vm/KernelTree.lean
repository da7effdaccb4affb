import SignalOS.Lib.RadixTree
import SignalOS.Vm.BootPages

/-!
# The tree of the kernel's page table

The tables behind the root as a radix tree, whose keys are the indices of the addresses.

* `kindOf`, `EntryOk` — what entries say, and what the kernel stores as one.
* `KernelTree` — the invariant of the kernel's page table.
* `KernelTree.xlate_eq` — the hardware's translation is a search in the tree.
* `KernelTree.map` — **a leaf entry maps one page, and no other address changes**.
-/

namespace SignalOS

open Partial RadixTree

/-! ## Entries -/

/-- What an entry says. -/
def kindOf (e : Uint64) : Kind Uint64 :=
  if e &&& PTE_V = 0 then .empty else if Mmu.isLeaf e then .leaf else .table (PTE2PA e)

/-- The hardware accepts the entry on a level, if it is valid. -/
def EntryOk (level : Nat) (e : Uint64) : Prop :=
  e &&& PTE_V ≠ 0 → Mmu.invalid e = false ∧
    if Mmu.isLeaf e then (PTE2PA e).toNat % Mmu.span level = 0 else level ≠ 0

theorem kindOf_empty {e : Uint64} : kindOf e = .empty ↔ e &&& PTE_V = 0 := by
  grind [kindOf]

theorem kindOf_zero : kindOf 0 = .empty := kindOf_empty.2 BitVec.zero_and

theorem kindOf_table {e p : Uint64} :
    kindOf e = .table p ↔ e &&& PTE_V ≠ 0 ∧ Mmu.isLeaf e = false ∧ PTE2PA e = p := by
  grind [kindOf]

theorem kindOf_leaf {e : Uint64} : kindOf e = .leaf ↔ e &&& PTE_V ≠ 0 ∧ Mmu.isLeaf e = true := by
  grind [kindOf]

/-- An entry that points to a table has no permissions. -/
theorem no_permissions {e : Uint64} (hvalid : Mmu.invalid e = false)
    (hleaf : Mmu.isLeaf e = false) :
    ¬ (e &&& PTE_R ≠ 0 ∨ e &&& PTE_W ≠ 0 ∨ e &&& PTE_X ≠ 0) := by
  rw [Mmu.isLeaf, bne_eq_false_iff_eq] at hleaf
  have hR : e &&& PTE_R = 0 := by
    rw [show PTE_R = (PTE_R ||| PTE_X) &&& PTE_R by decide, ← BitVec.and_assoc, hleaf]
    exact BitVec.zero_and
  have hX : e &&& PTE_X = 0 := by
    rw [show PTE_X = (PTE_R ||| PTE_X) &&& PTE_X by decide, ← BitVec.and_assoc, hleaf]
    exact BitVec.zero_and
  have hW : e &&& PTE_W = 0 := by
    by_contra hne
    have hw : (e &&& PTE_W != 0) = true := bne_iff_ne.2 hne
    rw [Mmu.invalid, hR, hw] at hvalid
    simp at hvalid
  simp [hR, hX, hW]

theorem invalid_of_not_valid {e : Uint64} (h : e &&& PTE_V = 0) : Mmu.invalid e = true := by
  rw [Mmu.invalid, h]
  rfl

/-- The flags of a page of the kernel. -/
structure LeafFlags (f : Uint64) : Prop where
  isFlags : IsFlags f
  leaf : f &&& (PTE_R ||| PTE_X) ≠ 0
  read : f &&& PTE_W ≠ 0 → f &&& PTE_R ≠ 0

section MakePte

variable {p f m : Uint64}

theorem MAKE_PTE_eq : MAKE_PTE p f = PA2PTE p ||| f ||| PTE_V := by rw [MAKE_PTE, BitVec.or_assoc]

theorem PTE2PA_MAKE_PTE (hp : PageStart p) (hf : IsFlags f) : PTE2PA (MAKE_PTE p f) = p := by
  rw [MAKE_PTE_eq, PTE2PA_entry hp hf]

theorem MAKE_PTE_and (hm : IsFlags m) (hV : PTE_V &&& m = 0) : MAKE_PTE p f &&& m = f &&& m := by
  rw [MAKE_PTE_eq, entry_and hm hV]

theorem MAKE_PTE_valid : MAKE_PTE p f &&& PTE_V ≠ 0 := by
  rw [MAKE_PTE_eq]
  exact or_V_ne_zero _

theorem MAKE_PTE_reserved (hp : p.toNat < 2 ^ 56) (hf : IsFlags f) : MAKE_PTE p f >>> 54 = 0 := by
  have hlow : (f ||| PTE_V) >>> 54 = 0 := by
    apply BitVec.eq_of_toNat_eq
    have hlt : (f ||| PTE_V).toNat < 2 ^ 10 := hf.or isFlags_V
    rw [BitVec.toNat_ushiftRight, Nat.shiftRight_eq_div_pow]
    exact Nat.div_eq_of_lt (hlt.trans (by decide))
  have hhigh : PA2PTE p >>> 54 = 0 := by
    apply BitVec.eq_of_toNat_eq
    simp only [PA2PTE, BitVec.toNat_ushiftRight, BitVec.toNat_shiftLeft, Nat.shiftRight_eq_div_pow,
      Nat.shiftLeft_eq]
    show _ = 0
    omega
  rw [MAKE_PTE, BitVec.ushiftRight_or_distrib, hlow, hhigh]
  rfl

/-- The flags that the hardware finds in an entry. -/
theorem MAKE_PTE_flags (hf : IsFlags f) : MAKE_PTE p f &&& 0x3FF = f ||| PTE_V := by
  have hmask : IsFlags 0x3FF := by decide
  have hsame : (f ||| PTE_V) &&& 0x3FF = f ||| PTE_V := by
    apply BitVec.eq_of_toNat_eq
    rw [BitVec.toNat_and]
    show _ &&& 2 ^ 10 - 1 = _
    rw [Nat.and_two_pow_sub_one_eq_mod]
    exact Nat.mod_eq_of_lt (hf.or isFlags_V)
  rw [MAKE_PTE, BitVec.and_or_distrib_right, PA2PTE_and hmask, hsame]
  exact BitVec.zero_or

theorem isLeaf_MAKE_PTE : Mmu.isLeaf (MAKE_PTE p f) = (f &&& (PTE_R ||| PTE_X) != 0) := by
  rw [Mmu.isLeaf, MAKE_PTE_and (by decide) (by decide)]

theorem invalid_MAKE_PTE (hp : p.toNat < 2 ^ 56) (hf : IsFlags f)
    (hread : f &&& PTE_W ≠ 0 → f &&& PTE_R ≠ 0) :
    Mmu.invalid (MAKE_PTE p f) = false := by
  have hV : (MAKE_PTE p f &&& PTE_V == 0) = false := beq_eq_false_iff_ne.2 MAKE_PTE_valid
  rw [Mmu.invalid, hV, MAKE_PTE_reserved hp hf, MAKE_PTE_and (by decide) (by decide),
    MAKE_PTE_and (by decide) (by decide)]
  by_cases hw : f &&& PTE_W = 0
  · rw [hw]
    simp
  · rw [beq_eq_false_iff_ne.2 (hread hw)]
    rfl

theorem entryOk_leaf {level : Nat} (hp : PageStart p) (hlt : p.toNat < 2 ^ 56) (hf : LeafFlags f)
    (haligned : p.toNat % Mmu.span level = 0) : EntryOk level (MAKE_PTE p f) := by
  intro _
  refine ⟨invalid_MAKE_PTE hlt hf.isFlags hf.read, ?_⟩
  rw [isLeaf_MAKE_PTE, if_pos (bne_iff_ne.2 hf.leaf), PTE2PA_MAKE_PTE hp hf.isFlags]
  exact haligned

theorem kindOf_leaf_entry (hf : LeafFlags f) : kindOf (MAKE_PTE p f) = .leaf :=
  kindOf_leaf.2 ⟨MAKE_PTE_valid, by rw [isLeaf_MAKE_PTE]; exact bne_iff_ne.2 hf.leaf⟩

theorem entryOk_table {level : Nat} (hlt : p.toNat < 2 ^ 56) (hlevel : level ≠ 0) :
    EntryOk level (MAKE_PTE p 0) := by
  intro _
  refine ⟨invalid_MAKE_PTE hlt (by decide) fun hw => absurd BitVec.zero_and hw, ?_⟩
  rw [isLeaf_MAKE_PTE]
  exact hlevel

theorem kindOf_table_entry (hp : PageStart p) : kindOf (MAKE_PTE p 0) = .table p := by
  refine kindOf_table.2 ⟨MAKE_PTE_valid, ?_, PTE2PA_MAKE_PTE hp (by decide)⟩
  rw [isLeaf_MAKE_PTE]
  rfl

end MakePte

/-! ## The translation as a search -/

/-- All entries of a tree are such that the hardware accepts them. -/
def EntriesOk (pte : Uint64 → Uint64 → Uint64) (root : Uint64) : Prop :=
  ∀ is t i, is.length < 3 → table kindOf pte root is = some t → EntryOk (2 - is.length) (pte t i)

theorem walk_zero {pte : Uint64 → Uint64 → Uint64} {va t : Uint64}
    (h : EntryOk 0 (pte t (PX 0 va))) :
    Mmu.walk pte va 0 t = (find kindOf pte t [PX 0 va]).map fun r => (r.1.length, r.2) := by
  rw [Mmu.walk, find]
  by_cases hV : pte t (PX 0 va) &&& PTE_V = 0
  · rw [kindOf_empty.2 hV, invalid_of_not_valid hV]
    rfl
  · obtain ⟨hvalid, hleaf⟩ := h hV
    simp only [hvalid]
    cases hl : Mmu.isLeaf (pte t (PX 0 va)) with
    | true =>
      rw [kindOf_leaf.2 ⟨hV, hl⟩]
      rfl
    | false =>
      rw [hl] at hleaf
      exact absurd rfl hleaf

theorem walk_succ {pte : Uint64 → Uint64 → Uint64} {va t : Uint64} {level : Nat}
    {rest : List Uint64}
    (h : EntryOk (level + 1) (pte t (PX (level + 1) va))) (hlen : rest.length = level + 1)
    (hnext : ∀ p, kindOf (pte t (PX (level + 1) va)) = .table p →
      Mmu.walk pte va level p = (find kindOf pte p rest).map fun r => (r.1.length, r.2)) :
    Mmu.walk pte va (level + 1) t = (find kindOf pte t (PX (level + 1) va :: rest)).map fun r =>
      (r.1.length, r.2) := by
  rw [Mmu.walk, find]
  by_cases hV : pte t (PX (level + 1) va) &&& PTE_V = 0
  · rw [kindOf_empty.2 hV, invalid_of_not_valid hV]
    rfl
  · obtain ⟨hvalid, hleaf⟩ := h hV
    simp only [hvalid]
    cases hl : Mmu.isLeaf (pte t (PX (level + 1) va)) with
    | true =>
      rw [hl] at hleaf
      have haligned : (PTE2PA (pte t (PX (level + 1) va))).toNat % Mmu.span (level + 1) = 0 :=
        hleaf
      rw [kindOf_leaf.2 ⟨hV, hl⟩]
      simp [haligned, hlen]
    | false =>
      have hne : rest.isEmpty = false := by
        cases rest with
        | nil => cases hlen
        | cons => rfl
      have htable := kindOf_table.2 ⟨hV, hl, rfl⟩
      simp only [htable, hne]
      exact hnext _ htable

/-- **The hardware finds what the search in the tree finds.** -/
theorem walk_eq_find {pte : Uint64 → Uint64 → Uint64} {root : Uint64} (h : EntriesOk pte root)
    (va : Uint64) :
    Mmu.walk pte va 2 root = (find kindOf pte root (Mmu.vpns va 0)).map fun r =>
      (r.1.length, r.2) := by
  refine walk_succ (h [] root _ (by decide) rfl) rfl fun level1 h1 => ?_
  have ht1 : table kindOf pte root [PX 2 va] = some level1 := by
    rw [table, h1]
    rfl
  refine walk_succ (h [PX 2 va] level1 _ (by simp) ht1) rfl fun level0 h0 => ?_
  have ht0 : table kindOf pte root ([PX 2 va] ++ [PX 1 va]) = some level0 := by
    rw [table_append ht1, table, h0]
    rfl
  exact walk_zero (h _ level0 _ (by simp) ht0)

/-- What an entry says about an address. -/
def entryXlate (va : Uint64) (r : List Uint64 × Uint64) : Uint64 × Uint64 :=
  (PTE2PA r.2 + BitVec.ofNat 64 (va.toNat % Mmu.span r.1.length), r.2 &&& 0x3FF)

theorem xlate_eq {pte : Uint64 → Uint64 → Uint64} {root : Uint64} (h : EntriesOk pte root)
    (va : Uint64) :
    Mmu.xlate pte root va =
      if Mmu.Canonical va then (find kindOf pte root (Mmu.vpns va 0)).map (entryXlate va)
        else none := by
  rw [Mmu.xlate, walk_eq_find h, Option.map_map]
  rfl

/-! ## The invariant -/

/-- **The kernel's page table**: no table stands at two places, the hardware accepts all entries,
and the pages that are left are not used as tables. -/
structure KernelTree (k : Kvm) (root : Uint64) : Prop where
  apart : Apart kindOf k.vm.pte root 3
  entries : EntriesOk k.vm.pte root
  unused : ∀ p ∈ k.fresh, ∀ is, is.length < 3 → table kindOf k.vm.pte root is ≠ some p
  fresh : FreshOk k

variable {k k' k₁ k₂ : Kvm} {root t i e p va pa f : Uint64} {is : List Uint64} {rest : List Uint64}
  {level : Nat}

/-- A root without valid entries. -/
theorem table_zero {pte : Uint64 → Uint64 → Uint64} (h : ∀ i, pte root i = 0)
    (ht : table kindOf pte root is = some t) :
    is = [] ∧ t = root := by
  cases is with
  | nil => exact ⟨rfl, (Option.some.inj ht).symm⟩
  | cons i is =>
    rw [table, h, kindOf_zero] at ht
    cases ht

theorem KernelTree.zero (h : ∀ i, k.vm.pte root i = 0) (hroot : root ∉ k.fresh) (hok : FreshOk k) :
    KernelTree k root ∧ ∀ a, Mmu.xlate k.vm.pte root a = none := by
  have hentries : EntriesOk k.vm.pte root := by
    intro is t i _ ht
    rw [(table_zero h ht).2, h]
    exact fun hvalid => absurd BitVec.zero_and hvalid
  refine ⟨⟨fun is js b _ _ his hjs => ?_, hentries, fun p hp is _ ht => ?_, hok⟩, fun a => ?_⟩
  · rw [(table_zero h his).1, (table_zero h hjs).1]
  · exact hroot ((table_zero h ht).2 ▸ hp)
  · rw [xlate_eq hentries, Mmu.vpns, find, h, kindOf_zero]
    exact ite_self _

/-- The entries of a tree after one of them has changed. -/
theorem EntriesOk.update {pte : Uint64 → Uint64 → Uint64} (h : EntriesOk pte root)
    (he : EntryOk (2 - is.length) e)
    (hat : ∀ js, js.length < 3 → table kindOf pte root js = some t → js = is)
    (htable : ∀ js b, js.length < 3 →
      table kindOf (Function.update pte t (Function.update (pte t) i e)) root js = some b →
      table kindOf pte root js = some b) :
    EntriesOk (Function.update pte t (Function.update (pte t) i e)) root := by
  intro js b j hjs hb
  have hold := htable js b hjs hb
  by_cases hbt : b = t
  · subst hbt
    rw [Function.update_self, Function.update_apply]
    split
    · rw [hat js hjs hold]
      exact he
    · exact h js b j hjs hold
  · rw [Function.update_of_ne hbt]
    exact h js b j hjs hold

/-- **A leaf entry maps one page**, and no other address changes. -/
theorem KernelTree.map (h : KernelTree k root) (hlevel : level ≤ 2) (hcanon : Mmu.Canonical va)
    (hva : va.toNat % Mmu.span level = 0) (hpa : pa.toNat % Mmu.span level = 0)
    (hlt : pa.toNat < 2 ^ 56)
    (hf : LeafFlags f) (ht : table kindOf k.vm.pte root is = some t)
    (hpath : is ++ [i] = Mmu.vpns va level)
    (hempty : kindOf (k.vm.pte t i) = .empty) :
    KernelTree { k with vm := k.vm.setPte t i (MAKE_PTE pa f) } root ∧
    (∀ js, js.length < 3 → table kindOf (k.vm.setPte t i (MAKE_PTE pa f)).pte root js =
      table kindOf k.vm.pte root js) ∧
    ∀ a, Mmu.xlate (k.vm.setPte t i (MAKE_PTE pa f)).pte root a =
      if a - va < BitVec.ofNat 64 (Mmu.span level) then some (pa + (a - va), f ||| PTE_V)
      else Mmu.xlate k.vm.pte root a := by
  have hlen : is.length = 2 - level := by
    have hlen := congrArg List.length hpath
    rw [List.length_append, List.length_singleton, Mmu.vpns_length hlevel] at hlen
    omega
  have hstart : PageStart pa := by
    rw [PageStart]
    rcases Mmu.span_cases hlevel with hspan | hspan | hspan
    all_goals
      rw [hspan] at hpa
      omega
  have hdepth : is.length < 3 := by omega
  have hleaf := kindOf_leaf_entry (p := pa) hf
  have htable (js : List Uint64) (hjs : js.length < 3) :
      table kindOf (k.vm.setPte t i (MAKE_PTE pa f)).pte root js = table kindOf k.vm.pte root js :=
    table_store h.apart ht hdepth hempty hleaf hjs
  have hok : EntryOk (2 - is.length) (MAKE_PTE pa f) := by
    refine entryOk_leaf hstart hlt hf ?_
    rw [show 2 - is.length = level by omega]
    exact hpa
  have hentries : EntriesOk (k.vm.setPte t i (MAKE_PTE pa f)).pte root :=
    h.entries.update hok (fun js hjs hb => h.apart js is t hjs hdepth hb ht)
      fun js b hjs hb => (htable js hjs).symm.trans hb
  refine ⟨⟨h.apart.congr htable, hentries, fun q hq js hjs => ?_, ⟨h.fresh.nodup, h.fresh.page,
    h.fresh.boot⟩⟩,
    htable, fun a => ?_⟩
  · rw [htable js hjs]
    exact h.unused q hq js hjs
  rw [xlate_eq hentries, xlate_eq h.entries]
  by_cases ha : Mmu.Canonical a
  · rw [if_pos ha, if_pos ha]
    have hfind : find kindOf (k.vm.setPte t i (MAKE_PTE pa f)).pte root (Mmu.vpns a 0) = _ :=
      find_store h.apart ht hdepth hleaf (Mmu.vpns_length (Nat.zero_le 2))
    rw [hfind]
    have hstarts : is ++ [i] <+: Mmu.vpns a 0 ↔ a - va < BitVec.ofNat 64 (Mmu.span level) := by
      rw [hpath, Mmu.vpns_prefix hlevel, Mmu.vpns_inj hlevel hcanon ha, Mmu.sub_lt_span hlevel hva]
    by_cases hin : a - va < BitVec.ofNat 64 (Mmu.span level)
    · have hsame := (Mmu.sub_lt_span hlevel hva).1 hin
      have hleft : ((Mmu.vpns a 0).drop (is.length + 1)).length = level := by
        rw [List.length_drop, Mmu.vpns_length (Nat.zero_le 2)]
        omega
      rw [if_pos (hstarts.2 hin), if_pos hin, Option.map_some, entryXlate, hleft,
        PTE2PA_MAKE_PTE hstart hf.isFlags,
        MAKE_PTE_flags hf.isFlags, Mmu.mod_span hlevel hva hsame]
    · rw [if_neg (fun hpre => hin (hstarts.1 hpre)), if_neg hin]
  · rw [if_neg ha, if_neg ha, if_neg]
    exact fun hin => ha (hcanon.of_same hlevel ((Mmu.sub_lt_span hlevel hva).1 hin))

end SignalOS
