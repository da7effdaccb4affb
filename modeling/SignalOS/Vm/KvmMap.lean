import Mathlib.Order.Interval.Finset.Nat
import SignalOS.Vm.KernelTree

/-!
# Mapping a range in the kernel's page table

* `kvmSlot_slot` — a turn of `kvmmap` finds an empty slot for a page of 4 KiB or 2 MiB, with new
  tables on the way to it that change no translation.
* `Mappable` — what `kvmmap` relies on; above all, the range ends below 2^64.
* `kvmmap_maps` — **`kvmmap` maps its range**, whatever pages it takes for that, and changes the
  translation of no other address.
-/

namespace SignalOS

open Partial RadixTree

variable {k k' k₁ k₂ : Kvm} {root t i e p va pa sz f : Uint64} {is js : List Uint64}
  {paths : Finset (List Uint64)}
  {level n : Nat} {perm : Int}

/-! ## New tables -/

/-- What `kvm.c` may do to a page table: add entries, in tables that were there or that it took
from the pages that were left. -/
structure Extends (root : Uint64) (k k' : Kvm) : Prop where
  tree : KernelTree k' root
  tables : ∀ js p, js.length < 3 → table kindOf k.vm.pte root js = some p →
    table kindOf k'.vm.pte root js = some p
  taken : ∀ js p, js.length < 3 → table kindOf k'.vm.pte root js = some p →
    table kindOf k.vm.pte root js = some p ∨ p ∈ k.fresh
  same : SameBoot k k'

theorem Extends.refl (h : KernelTree k root) : Extends root k k :=
  ⟨h, fun _ _ _ hp => hp, fun _ _ _ hp => .inl hp, .refl⟩

theorem Extends.trans (h : Extends root k k₁) (h' : Extends root k₁ k₂) : Extends root k k₂ := by
  refine ⟨h'.tree, fun js p hjs hp => h'.tables js p hjs (h.tables js p hjs hp),
    fun js p hjs hp => ?_, h.same.trans h'.same⟩
  rcases h'.taken js p hjs hp with hp | hp
  · exact h.taken js p hjs hp
  · exact .inr (h.same.fresh.subset hp)

/-- How many tables of a set of paths are missing. -/
def Kvm.missing (k : Kvm) (root : Uint64) (paths : Finset (List Uint64)) : Nat :=
  (RadixTree.missing kindOf k.vm.pte root paths).card

/-- New tables on some paths, one for each page that is taken; they change no translation. -/
structure NewTables (root : Uint64) (paths : Finset (List Uint64)) (k k' : Kvm) :
    Prop extends Extends root k k' where
  finds : ∀ js, js.length = 3 → find kindOf k'.vm.pte root js = find kindOf k.vm.pte root js
  budget : k'.missing root paths + k.fresh.length = k.missing root paths + k'.fresh.length

theorem NewTables.refl (h : KernelTree k root) : NewTables root paths k k :=
  ⟨.refl h, fun _ _ => rfl, rfl⟩

theorem NewTables.trans (h : NewTables root paths k k₁) (h' : NewTables root paths k₁ k₂) :
    NewTables root paths k k₂ := by
  refine ⟨h.toExtends.trans h'.toExtends, fun js hjs => (h'.finds js hjs).trans (h.finds js hjs),
    ?_⟩
  have := h.budget
  have := h'.budget
  omega

/-- Enough pages are left, after the growth, too. -/
theorem NewTables.enough (h : NewTables root paths k k')
    (hpages : k.missing root paths ≤ k.fresh.length) :
    k'.missing root paths ≤ k'.fresh.length := by
  have := h.budget
  omega

section Link

variable (h : KernelTree k root) (ht : table kindOf k.vm.pte root is = some t)
  (hlen : is.length + 1 < 3)
  (hempty : kindOf (k.vm.pte t i) = .empty) (hfresh : k.fresh = p :: k'.fresh)
  (hpte : k'.vm.pte = RadixTree.link k.vm.pte p 0 t i (MAKE_PTE p 0))

include h ht hlen hempty hfresh hpte

/-- The tables after a new one is linked in. -/
theorem KernelTree.table_link (hjs : js.length < 3) : table kindOf k'.vm.pte root js =
    if js = is ++ [i] then some p else table kindOf k.vm.pte root js := by
  have hin : p ∈ k.fresh := by rw [hfresh]; exact List.mem_cons_self
  rw [hpte]
  exact RadixTree.table_link h.apart (h.unused p hin) ht hlen hempty kindOf_zero
    (kindOf_table_entry (h.fresh.page p hin).1) hjs

/-- **A page that was left becomes a table.** -/
theorem KernelTree.link (hok : FreshOk k') : KernelTree k' root := by
  have hin : p ∈ k.fresh := by rw [hfresh]; exact List.mem_cons_self
  have hunused := h.unused p hin
  obtain ⟨hstart, -, hlt⟩ := h.fresh.page p hin
  have htable (js : List Uint64) (hjs : js.length < 3) :=
    h.table_link ht hlen hempty hfresh hpte hjs
  have htp : t ≠ p := by
    rintro rfl
    exact hunused is (by omega) ht
  refine ⟨?_, fun js b j hjs hb => ?_, fun q hq js hjs => ?_, hok⟩
  · rw [hpte]
    exact Apart.link h.apart hunused ht hlen hempty kindOf_zero (kindOf_table_entry hstart)
  · rw [htable js hjs] at hb
    rw [hpte, link_apply htp]
    by_cases hnew : js = is ++ [i]
    · -- all entries of the new table are zero
      rw [if_pos hnew, Option.some.injEq] at hb
      rw [if_neg (fun hentry => htp (hentry.1.symm.trans hb.symm)), if_pos hb.symm]
      exact fun hvalid => absurd BitVec.zero_and hvalid
    · rw [if_neg hnew] at hb
      have hbp : b ≠ p := by
        rintro rfl
        exact hunused js hjs hb
      rw [if_neg hbp]
      split
      · rename_i hentry
        rw [h.apart js is t hjs (by omega) (hentry.1 ▸ hb) ht]
        exact entryOk_table hlt (by omega)
      · exact h.entries js b j hjs hb
  · rw [htable js hjs]
    split
    · have hnodup := h.fresh.nodup
      rw [hfresh, List.nodup_cons] at hnodup
      exact fun heq => hnodup.1 (Option.some.inj heq ▸ hq)
    · exact h.unused q (by rw [hfresh]; exact List.mem_cons_of_mem _ hq) js hjs

end Link

/-- **A new table**, behind an empty entry. -/
theorem newTable_adds (h : KernelTree k root) (ht : table kindOf k.vm.pte root is = some t)
    (hlen : is.length + 1 < 3)
    (hempty : kindOf (k.vm.pte t i) = .empty) (hpaths : ∀ js ∈ paths, js.length < 3)
    (hmem : is ++ [i] ∈ paths)
    (hpages : k.missing root paths ≤ k.fresh.length) :
    Ends (newTable t i) k fun r k' => NewTables root paths k k' ∧
      table kindOf k'.vm.pte root (is ++ [i]) = some r := by
  have hnone : table kindOf k.vm.pte root (is ++ [i]) = none := table_of_empty ht hempty []
  have hpos : 0 < k.fresh.length :=
    (Finset.card_pos.2 ⟨_, mem_missing.2 ⟨hmem, hnone⟩⟩).trans_le hpages
  obtain ⟨p, rest, hfresh⟩ := List.exists_cons_of_length_pos hpos
  have hin : p ∈ k.fresh := by rw [hfresh]; exact List.mem_cons_self
  have hkind := kindOf_table_entry (h.fresh.page p hin).1
  refine .bind (allockernelpage_fresh h.fresh hfresh) fun r k₁ hr => ?_
  obtain ⟨rfl, rfl, hpte, hok, hsame⟩ := hr
  rw [KVA_TO_PA_add]
  refine .modify_bind (.pure ?_)
  set k₂ : Kvm := { k₁ with vm := (k₁.vm.zeroTable p).setPte t i (MAKE_PTE p 0) } with hk₂
  have hpte₂ : k₂.vm.pte = RadixTree.link k.vm.pte p 0 t i (MAKE_PTE p 0) := by
    rw [← hpte]
    rfl
  have htable (js : List Uint64) (hjs : js.length < 3) :=
    @KernelTree.table_link _ k₂ _ _ _ _ _ js h ht hlen hempty hfresh hpte₂ hjs
  refine ⟨⟨⟨?_, fun js q hjs hq => ?_, fun js q hjs hq => ?_, ?_⟩, fun js hjs => ?_, ?_⟩, ?_⟩
  · exact h.link ht hlen hempty hfresh hpte₂ ⟨hok.nodup, hok.page, hok.boot⟩
  · have hne : js ≠ is ++ [i] := by
      rintro rfl
      rw [hnone] at hq
      cases hq
    rw [htable js hjs, if_neg hne]
    exact hq
  · rw [htable js hjs] at hq
    split at hq
    · exact .inr (Option.some.inj hq ▸ hin)
    · exact .inl hq
  · exact ⟨hsame.base, hsame.inited, hsame.tops, hsame.list, hsame.fresh⟩
  · rw [hpte₂]
    exact find_link h.apart (h.unused p hin) ht hlen hempty kindOf_zero hkind hjs
  · have hone := missing_link h.apart (h.unused p hin) ht hlen hempty kindOf_zero hkind hpaths hmem
    have hfresh₂ : k₂.fresh = k₁.fresh := rfl
    rw [Kvm.missing, Kvm.missing, hpte₂, hfresh₂, hfresh, List.length_cons]
    omega
  · rw [htable _ (by rw [List.length_append]; exact hlen), if_pos rfl]

/-- The table behind an entry that is no leaf, a new one if need be. -/
theorem tableBehind_adds (h : KernelTree k root) (ht : table kindOf k.vm.pte root is = some t)
    (hlen : is.length + 1 < 3)
    (hleaf : kindOf (k.vm.pte t i) ≠ .leaf) (hpaths : ∀ js ∈ paths, js.length < 3)
    (hmem : is ++ [i] ∈ paths)
    (hpages : k.missing root paths ≤ k.fresh.length) :
    Ends (tableBehind t i (k.vm.pte t i)) k fun r k' =>
      NewTables root paths k k' ∧ table kindOf k'.vm.pte root (is ++ [i]) = some r := by
  refine .ite (fun hV => newTable_adds h ht hlen (kindOf_empty.2 hV) hpaths hmem hpages)
    fun hV => ?_
  have hnot : Mmu.isLeaf (k.vm.pte t i) = false := by
    by_contra hl
    exact hleaf (kindOf_leaf.2 ⟨hV, by simpa using hl⟩)
  obtain ⟨hvalid, -⟩ := h.entries is t i (by omega) ht hV
  rw [oldTable, if_neg (no_permissions hvalid hnot)]
  refine .pure ⟨.refl h, ?_⟩
  rw [table_append ht, table, kindOf_table.2 ⟨hV, hnot, rfl⟩]
  rfl

/-! ## A turn of the loop -/

theorem aligned_2M_iff {a : Uint64} : IS_ALIGNED a PGSIZE_2M = true ↔ a.toNat % 2 ^ 21 = 0 := by
  have hlow : (a &&& (PGSIZE_2M - 1)).toNat = a.toNat % 2 ^ 21 := by
    rw [BitVec.toNat_and]
    exact Nat.and_two_pow_sub_one_eq_mod _ 21
  rw [IS_ALIGNED, beq_iff_eq, ← BitVec.toNat_inj, hlow]
  rfl

/-- A slot that is ready for the entry of a page. -/
structure SlotFor (k : Kvm) (root va pa sz : Uint64) (level : Nat) (slot : PteRef) : Prop where
  place : ∃ is, table kindOf k.vm.pte root is = some slot.1 ∧ is ++ [slot.2] = Mmu.vpns va level
  empty : kindOf (k.vm.pte slot.1 slot.2) = .empty
  size : level = 0 ∨ level = 1 ∧ va.toNat % 2 ^ 21 = 0 ∧ pa.toNat % 2 ^ 21 = 0 ∧ 2 ^ 21 ≤ sz.toNat

/-- **A turn of the loop finds a slot**, for a page of 4 KiB or 2 MiB. -/
theorem kvmSlot_slot (h : KernelTree k root)
    (hnone : find kindOf k.vm.pte root (Mmu.vpns va 0) = none)
    (hpaths : ∀ js ∈ paths, js.length < 3) (hmem2 : Mmu.vpns va 2 ∈ paths)
    (hmem1 : Mmu.vpns va 1 ∈ paths)
    (hpages : k.missing root paths ≤ k.fresh.length) :
    Ends (kvmSlot root va pa sz) k fun r k' => NewTables root paths k k' ∧
      SlotFor k' root va pa sz r.1 r.2 := by
  have hroot : table kindOf k.vm.pte root [] = some root := rfl
  have hleaf2 : kindOf (k.vm.pte root (PX 2 va)) ≠ .leaf := not_leaf_of_find hroot hnone
  refine .get_bind (.bind (tableBehind_adds h hroot (by decide) hleaf2 hpaths hmem2 hpages)
    fun t1 k₁ h1 => ?_)
  obtain ⟨hnew₁, ht1⟩ := h1
  have hnone₁ : find kindOf k₁.vm.pte root (Mmu.vpns va 0) = none :=
    (hnew₁.finds _ rfl).trans hnone
  refine .get_bind (.ite (fun hhuge => .pure ⟨hnew₁, ⟨_, ht1, rfl⟩, kindOf_empty.2 hhuge.1, ?_⟩)
    fun _ => ?_)
  · obtain ⟨-, hva, hpa, hsz⟩ := hhuge
    exact .inr ⟨rfl, aligned_2M_iff.1 hva, aligned_2M_iff.1 hpa, hsz⟩
  · have hleaf1 : kindOf (k₁.vm.pte t1 (PX 1 va)) ≠ .leaf := not_leaf_of_find ht1 hnone₁
    refine .bind (tableBehind_adds hnew₁.tree ht1 (by simp) hleaf1 hpaths hmem1
      (hnew₁.enough hpages)) fun t0 k₂ h0 => ?_
    obtain ⟨hnew₂, ht0⟩ := h0
    have hnone₂ : find kindOf k₂.vm.pte root (Mmu.vpns va 0) = none :=
      (hnew₂.finds _ rfl).trans hnone₁
    have hempty : kindOf (k₂.vm.pte t0 (PX 0 va)) = .empty := empty_of_find ht0 hnone₂
    refine .get_bind (.ite (fun hV => absurd (kindOf_empty.1 hempty) hV) fun _ =>
      .pure ⟨hnew₁.trans hnew₂, ?_⟩)
    exact ⟨⟨_, ht0, rfl⟩, hempty, .inl rfl⟩

/-! ## The loop -/

/-- The paths of the tables for `n` pages from `va` on. -/
def tablesFor (va : Uint64) (n : Nat) : Finset (List Uint64) :=
  (Finset.range n).biUnion fun i =>
    {Mmu.vpns (va + BitVec.ofNat 64 (4096 * i)) 2, Mmu.vpns (va + BitVec.ofNat 64 (4096 * i)) 1}

theorem mem_tablesFor : js ∈ tablesFor va n ↔
    ∃ i < n, js = Mmu.vpns (va + BitVec.ofNat 64 (4096 * i)) 2 ∨
      js = Mmu.vpns (va + BitVec.ofNat 64 (4096 * i)) 1 := by
  simp [tablesFor]

theorem length_of_tablesFor (h : js ∈ tablesFor va n) : js.length < 3 := by
  obtain ⟨i, -, rfl | rfl⟩ := mem_tablesFor.1 h
  · exact Nat.lt_of_sub_eq_succ rfl
  · exact Nat.lt_of_sub_eq_succ rfl

/-- The tables for the pages that are left are among those for all pages. -/
theorem tablesFor_drop {j : Nat} (hj : j ≤ n) :
    tablesFor (va + BitVec.ofNat 64 (4096 * j)) (n - j) ⊆ tablesFor va n := by
  intro js hjs
  obtain ⟨i, hi, h⟩ := mem_tablesFor.1 hjs
  have hsum : va + BitVec.ofNat 64 (4096 * j) + BitVec.ofNat 64 (4096 * i) = va + BitVec.ofNat 64
      (4096 * (i + j)) := by
    rw [BitVec.add_assoc, ← BitVec.ofNat_add]
    congr 2
    omega
  rw [hsum] at h
  exact mem_tablesFor.2 ⟨i + j, by omega, h⟩

theorem PX_eq_ofNat (level : Nat) (a : Uint64) :
    PX level a = BitVec.ofNat 64 (a.toNat / 2 ^ (12 + 9 * level) % 512) := by
  apply BitVec.eq_of_toNat_eq
  rw [toNat_PX, BitVec.toNat_ofNat]
  omega

/-- A table for each GiB and each 2 MiB that the pages touch is enough. -/
theorem card_tablesFor_le (hfit : va.toNat + 4096 * n ≤ 2 ^ 64) : (tablesFor va n).card ≤
    ((va.toNat + 4096 * n - 1) / 2 ^ 30 + 1 - va.toNat / 2 ^ 30) +
      ((va.toNat + 4096 * n - 1) / 2 ^ 21 + 1 - va.toNat / 2 ^ 21) := by
  have hsub : tablesFor va n ⊆
      (Finset.Icc (va.toNat / 2 ^ 30) ((va.toNat + 4096 * n - 1) / 2 ^ 30)).image
        (fun g => [BitVec.ofNat 64 (g % 512)]) ∪
      (Finset.Icc (va.toNat / 2 ^ 21) ((va.toNat + 4096 * n - 1) / 2 ^ 21)).image
        (fun m => [BitVec.ofNat 64 (m / 512 % 512), BitVec.ofNat 64 (m % 512)]) := by
    intro js hjs
    obtain ⟨i, hi, h⟩ := mem_tablesFor.1 hjs
    have ha : (va + BitVec.ofNat 64 (4096 * i)).toNat = va.toNat + 4096 * i := by
      rw [BitVec.toNat_add, BitVec.toNat_ofNat]
      omega
    rw [Finset.mem_union, Finset.mem_image, Finset.mem_image]
    rcases h with rfl | rfl
    · refine .inl ⟨(va.toNat + 4096 * i) / 2 ^ 30, Finset.mem_Icc.2 ⟨?_, ?_⟩, ?_⟩
      · exact Nat.div_le_div_right (Nat.le_add_right _ _)
      · exact Nat.div_le_div_right (by omega)
      · show _ = [PX 2 _]
        rw [PX_eq_ofNat, ha]
    · refine .inr ⟨(va.toNat + 4096 * i) / 2 ^ 21, Finset.mem_Icc.2 ⟨?_, ?_⟩, ?_⟩
      · exact Nat.div_le_div_right (Nat.le_add_right _ _)
      · exact Nat.div_le_div_right (by omega)
      · show _ = [PX 2 _, PX 1 _]
        rw [PX_eq_ofNat, PX_eq_ofNat, ha, Nat.div_div_eq_div_mul]
        rfl
  refine (Finset.card_le_card hsub).trans ((Finset.card_union_le _ _).trans ?_)
  refine Nat.add_le_add (Finset.card_image_le.trans_eq ?_) (Finset.card_image_le.trans_eq ?_)
  · exact Nat.card_Icc _ _
  · exact Nat.card_Icc _ _

theorem Kvm.missing_le (hfit : va.toNat + 4096 * n ≤ 2 ^ 64) : k.missing root (tablesFor va n) ≤
    ((va.toNat + 4096 * n - 1) / 2 ^ 30 + 1 - va.toNat / 2 ^ 30) +
      ((va.toNat + 4096 * n - 1) / 2 ^ 21 + 1 - va.toNat / 2 ^ 21) :=
  (Finset.card_le_card (Finset.filter_subset _ _)).trans (card_tablesFor_le hfit)

/-- **What `kvmmap` relies on**: a range of whole pages on one side of the address space, none of
them mapped, physical addresses for it, and a page for each table that is missing. -/
structure Mappable (k : Kvm) (root va pa sz : Uint64) : Prop where
  va_aligned : PageStart va
  pa_aligned : PageStart pa
  sz_aligned : PageStart sz
  range : va.toNat + sz.toNat ≤ 2 ^ 38 ∨ 2 ^ 64 - 2 ^ 38 ≤ va.toNat ∧ va.toNat + sz.toNat < 2 ^ 64
  phys : pa.toNat + sz.toNat ≤ 2 ^ 56
  unmapped : ∀ a, a - va < sz → Mmu.xlate k.vm.pte root a = none
  pages : k.missing root (tablesFor va (sz.toNat / 4096)) ≤ k.fresh.length

/-- What `kvmmap` does to the translation, and to nothing else. -/
structure MapsRange (root va pa sz f : Uint64) (k k' : Kvm) : Prop extends Extends root k k' where
  xlate : ∀ a, Mmu.xlate k'.vm.pte root a =
    if a - va < sz then some (pa + (a - va), f ||| PTE_V) else Mmu.xlate k.vm.pte root a

variable {vaddrEnd : Uint64}

theorem Mappable.free (h : Mappable k root va pa sz) (htree : KernelTree k root)
    (hpos : 0 < sz.toNat) :
    Mmu.Canonical va ∧ find kindOf k.vm.pte root (Mmu.vpns va 0) = none := by
  have hcanon : Mmu.Canonical va := by
    have := h.range
    rw [Mmu.Canonical]
    omega
  have hnone := h.unmapped va (by rw [BitVec.sub_self]; exact BitVec.lt_def.2 hpos)
  rw [xlate_eq htree.entries, if_pos hcanon, Option.map_eq_none_iff] at hnone
  exact ⟨hcanon, hnone⟩

/-- The bytes that a turn of the loop maps. -/
def turnSize (level : Nat) : Uint64 := if level = 1 then PGSIZE_2M else PGSIZE

theorem turnSize_eq (h : level ≤ 1) : turnSize level = BitVec.ofNat 64 (Mmu.span level) ∧
    (turnSize level).toNat = Mmu.span level ∧ Mmu.span level % 4096 = 0 ∧ 0 < Mmu.span level := by
  match level, h with
  | 0, _ => decide
  | 1, _ => decide

theorem NewTables.xlate (h : KernelTree k root) (hnew : NewTables root paths k k₁) (a : Uint64) :
    Mmu.xlate k₁.vm.pte root a = Mmu.xlate k.vm.pte root a := by
  rw [xlate_eq hnew.tree.entries, xlate_eq h.entries, hnew.finds _ rfl]

/-- **A turn of the loop maps its page.** -/
theorem NewTables.maps {slot : PteRef} (h : KernelTree k root) (hmap : Mappable k root va pa sz)
    (hpos : 0 < sz.toNat)
    (hnew : NewTables root paths k k₁) (hslot : SlotFor k₁ root va pa sz level slot)
    (hf : LeafFlags f) :
    MapsRange root va pa (turnSize level) f k
      { k₁ with vm := k₁.vm.setPte slot.1 slot.2 (MAKE_PTE pa f) } ∧
      ∀ js, js.length < 3 → table kindOf (k₁.vm.setPte slot.1 slot.2 (MAKE_PTE pa f)).pte root js =
        table kindOf k₁.vm.pte root js := by
  obtain ⟨is, ht, hpath⟩ := hslot.place
  have hlevel : level ≤ 1 := by
    have := hslot.size
    omega
  have hva := hmap.va_aligned
  have hpa := hmap.pa_aligned
  have hphys := hmap.phys
  rw [PageStart] at hva hpa
  have haligned : va.toNat % Mmu.span level = 0 ∧ pa.toNat % Mmu.span level = 0 := by
    rcases hslot.size with rfl | ⟨rfl, hva, hpa, -⟩
    · exact ⟨hva, hpa⟩
    · exact ⟨hva, hpa⟩
  obtain ⟨htree, htables, hxlate⟩ :=
    hnew.tree.map (by omega) (hmap.free h hpos).1 haligned.1 haligned.2 (by omega) hf ht
      hpath hslot.empty
  refine ⟨⟨hnew.toExtends.trans ⟨htree, fun js q hjs hq => ?_, fun js q hjs hq => ?_, .setPte⟩,
    fun a => ?_⟩, htables⟩
  · exact (htables js hjs).trans hq
  · exact .inl ((htables js hjs).symm.trans hq)
  · rw [(turnSize_eq hlevel).1, hxlate, hnew.xlate h]

/-- **What is left of the range can be mapped after a turn.** -/
theorem Mappable.rest {slot : PteRef} (h : Mappable k root va pa sz) (hpos : 0 < sz.toNat)
    (hslot : SlotFor k₁ root va pa sz level slot) (hmaps : MapsRange root va pa
    (turnSize level) f k k₂)
    (hpages : k₂.missing root (tablesFor va (sz.toNat / 4096)) ≤ k₂.fresh.length) :
    Mappable k₂ root (va + turnSize level) (pa + turnSize level) (sz - turnSize level) ∧
      (0 < (turnSize level).toNat ∧ (turnSize level).toNat ≤ sz.toNat) ∧
      tablesFor (va + turnSize level) ((sz - turnSize level).toNat / 4096) ⊆ tablesFor va
        (sz.toNat / 4096) := by
  obtain ⟨hva, hpa, hsz, hrange, hphys, hunmapped, -⟩ := h
  have hlevel : level ≤ 1 := by
    have := hslot.size
    omega
  obtain ⟨-, hsize, hmod, hspan⟩ := turnSize_eq hlevel
  rw [PageStart] at hva hpa hsz
  have hle : Mmu.span level ≤ sz.toNat := by
    rcases hslot.size with rfl | ⟨rfl, -, -, hsz⟩
    · show 4096 ≤ sz.toNat
      omega
    · exact hsz
  have hlt := sz.isLt
  have hva' : (va + turnSize level).toNat = va.toNat + Mmu.span level := by
    rw [BitVec.toNat_add, hsize]
    omega
  have hpa' : (pa + turnSize level).toNat = pa.toNat + Mmu.span level := by
    rw [BitVec.toNat_add, hsize]
    omega
  have hsz' : (sz - turnSize level).toNat = sz.toNat - Mmu.span level := by
    rw [BitVec.toNat_sub, hsize]
    omega
  have hsub : tablesFor (va + turnSize level) ((sz - turnSize level).toNat / 4096) ⊆ tablesFor va
      (sz.toNat / 4096) := by
    have hdrop :=
      @tablesFor_drop va (sz.toNat / 4096) (Mmu.span level / 4096) (Nat.div_le_div_right hle)
    have hturn : BitVec.ofNat 64 (4096 * (Mmu.span level / 4096)) = turnSize level := by
      rw [Nat.mul_div_cancel' (Nat.dvd_of_mod_eq_zero hmod)]
      exact (turnSize_eq hlevel).1.symm
    have hrest : sz.toNat / 4096 - Mmu.span level / 4096 = (sz - turnSize level).toNat / 4096 := by
      omega
    rw [hturn, hrest] at hdrop
    exact hdrop
  refine ⟨⟨?_, ?_, ?_, by omega, by omega, fun a ha => ?_, ?_⟩, by omega, hsub⟩
  · rw [PageStart]
    omega
  · rw [PageStart]
    omega
  · rw [PageStart]
    omega
  · have hnot : ¬ a - va < turnSize level ∧ a - va < sz := by
      rw [BitVec.lt_def, BitVec.toNat_sub, hva', hsz'] at ha
      rw [BitVec.lt_def, BitVec.lt_def, BitVec.toNat_sub, hsize]
      have := a.isLt
      omega
    rw [hmaps.xlate, if_neg hnot.1]
    exact hunmapped a hnot.2
  · exact (Finset.card_le_card (Finset.filter_subset_filter _ hsub)).trans hpages

/-- Two ranges, one behind the other. -/
theorem MapsRange.append {size : Uint64} (hle : size.toNat ≤ sz.toNat)
    (h : MapsRange root va pa size f k k₁)
    (h' : MapsRange root (va + size) (pa + size) (sz - size) f k₁ k₂) :
    MapsRange root va pa sz f k k₂ := by
  refine ⟨h.toExtends.trans h'.toExtends, fun a => ?_⟩
  have hsub : a - (va + size) = a - va - size := by grind
  have hsum : pa + size + (a - (va + size)) = pa + (a - va) := by grind
  have hsz : (sz - size).toNat = sz.toNat - size.toNat := BitVec.toNat_sub_of_le hle
  rw [h'.xlate, h.xlate, hsum, hsub]
  simp only [BitVec.lt_def, hsz]
  have hmin : (a - va - size).toNat = (2 ^ 64 - size.toNat + (a - va).toNat) % 2 ^ 64 :=
    BitVec.toNat_sub ..
  by_cases hfirst : (a - va).toNat < size.toNat
  · rw [if_neg (by omega), if_pos hfirst, if_pos (by omega)]
  · by_cases hin : (a - va).toNat < sz.toNat
    · rw [if_pos (by omega), if_pos hin]
    · rw [if_neg (by omega), if_neg hfirst, if_neg hin]

/-- **The loop maps the range.** -/
theorem kvmmapLoop_maps (hf : LeafFlags (ofInt perm)) : ∀ n (k : Kvm) va pa sz, KernelTree k root →
    Mappable k root va pa sz → vaddrEnd = va + sz → sz.toNat / 4096 < n →
    Ends (kvmmapLoop root vaddrEnd perm n va pa sz) k fun r k' => r = (vaddrEnd, 0) ∧
      MapsRange root va pa sz (ofInt perm) k k' ∧
      k.fresh.length ≤ k'.fresh.length + k.missing root (tablesFor va (sz.toNat / 4096)) := by
  intro n
  induction n with
  | zero =>
    intro k va pa sz _ _ _ hn
    exact absurd hn (Nat.not_lt_zero _)
  | succ n ih =>
    intro k va pa sz htree h hend hn
    have hrange := h.range
    have haligned := h.sz_aligned
    rw [PageStart] at haligned
    have hend' : vaddrEnd.toNat = va.toNat + sz.toNat := by
      rw [hend, BitVec.toNat_add]
      omega
    refine .ite (fun hlt => ?_) fun hge => .pure ?_
    · rw [BitVec.lt_def, hend'] at hlt
      have hpos : 0 < sz.toNat := by omega
      obtain ⟨-, hnone⟩ := h.free htree hpos
      have hat (level : Nat) (hlevel : level = 2 ∨ level = 1) :
          Mmu.vpns va level ∈ tablesFor va (sz.toNat / 4096) := by
        refine mem_tablesFor.2 ⟨0, by omega, ?_⟩
        rw [Nat.mul_zero, BitVec.add_zero]
        rcases hlevel with rfl | rfl
        · exact .inl rfl
        · exact .inr rfl
      refine .bind (kvmSlot_slot htree hnone (fun js hjs => length_of_tablesFor hjs)
        (hat 2 (.inl rfl)) (hat 1 (.inr rfl))
        h.pages) fun r k₁ hr => ?_
      obtain ⟨level, slot⟩ := r
      have hslot : SlotFor k₁ root va pa sz level slot := hr.2
      have hnew := hr.1
      obtain ⟨hmaps, htables⟩ := hnew.maps htree h hpos hslot hf
      refine .modify_bind ?_
      set k₂ : Kvm :=
        { k₁ with vm := k₁.vm.setPte slot.1 slot.2 (MAKE_PTE pa (ofInt perm)) } with hk₂
      have hsame : k₂.missing root (tablesFor va (sz.toNat / 4096)) = k₁.missing root
          (tablesFor va (sz.toNat / 4096)) := by
        refine congrArg Finset.card (Finset.filter_congr fun js hjs => ?_)
        rw [htables js (length_of_tablesFor hjs)]
      have hfresh : k₂.fresh = k₁.fresh := rfl
      obtain ⟨hrest, ⟨hsize, hle⟩, hsub⟩ :=
        h.rest hpos hslot hmaps (by rw [hsame, hfresh]; exact hnew.enough h.pages)
      have hturn : turnSize level = if level = 1 then PGSIZE_2M else PGSIZE := rfl
      rw [← hturn]
      have hend₂ : vaddrEnd = va + turnSize level + (sz - turnSize level) := by rw [hend]; grind
      refine (ih k₂ (va + turnSize level) (pa + turnSize level) (sz - turnSize level) hmaps.tree
        hrest hend₂ ?_).mono fun r k' hr => ⟨hr.1, ?_, ?_⟩
      · have := hrest.sz_aligned
        rw [PageStart] at this
        have hleft : (sz - turnSize level).toNat = sz.toNat - (turnSize level).toNat :=
          BitVec.toNat_sub_of_le hle
        omega
      · exact hmaps.append hle hr.2.1
      · have hcard : k₂.missing root _ ≤ k₂.missing root _ :=
          Finset.card_le_card (Finset.filter_subset_filter _ hsub)
        have hbudget := hnew.budget
        have hused := hr.2.2
        rw [hfresh] at hused
        omega
    · have hzero : sz = 0 := by
        apply BitVec.eq_of_toNat_eq
        rw [BitVec.lt_def, hend'] at hge
        show _ = 0
        omega
      subst hzero
      refine ⟨?_, ⟨.refl htree, fun a => ?_⟩, Nat.le_add_right _ _⟩
      · rw [hend]
        exact congrArg (·, (0 : Uint64)) (BitVec.add_zero va).symm
      · rw [if_neg]
        exact BitVec.not_lt_zero

/-- `kvmmap` has a result, and takes a page for each table that was missing. -/
theorem kvmmap_ends (htree : KernelTree k root) (h : Mappable k root va pa sz)
    (hf : LeafFlags (ofInt perm)) :
    Ends (kvmmap root va pa sz perm) k fun _ k' => MapsRange root va pa sz (ofInt perm) k k' ∧
      k.fresh.length ≤ k'.fresh.length + k.missing root (tablesFor va (sz.toNat / 4096)) := by
  have hassert {k : Kvm} (x : Bool) (hx : x = true) : kvmAssert x k = some (⟨⟩, k) := by
    rw [kvmAssert, if_pos hx]
    rfl
  refine .bind_of_eq (hassert _ (PGALIGNED_of h.va_aligned))
    (.bind_of_eq (hassert _ (PGALIGNED_of h.pa_aligned))
    (.bind_of_eq (hassert _ (PGALIGNED_of h.sz_aligned)) ?_))
  refine .bind (kvmmapLoop_maps hf _ k va pa sz htree h rfl (Nat.lt_succ_self _)) fun r k' hr => ?_
  obtain ⟨rfl, hmaps, hused⟩ := hr
  refine .bind_of_eq (hassert _ (beq_iff_eq.2 rfl)) ?_
  exact .of_eq (hassert _ (beq_iff_eq.2 rfl)) ⟨hmaps, hused⟩

/-- **`kvmmap` maps its range and nothing else**: the hardware translates every address of it,
through pages of 2 MiB where `kvmmap` uses them, and every other address as before.  It takes no
more pages than there are tables missing.  The range ends below 2^64 (`Mappable.range`): one that
ends at 2^64 has the end 0, and `kvmmap` panics. -/
theorem kvmmap_maps (htree : KernelTree k root) (h : Mappable k root va pa sz)
    (hf : LeafFlags (ofInt perm)) :
    Ends (kvmmap root va pa sz perm) k fun _ k' => KernelTree k' root ∧
      (∀ a, Mmu.xlate k'.vm.pte root a =
        if a - va < sz then some (pa + (a - va), ofInt perm ||| PTE_V)
          else Mmu.xlate k.vm.pte root a) ∧
      k'.fresh <:+ k.fresh ∧
      k.fresh.length ≤ k'.fresh.length + k.missing root (tablesFor va (sz.toNat / 4096)) :=
  (kvmmap_ends htree h hf).mono fun _ _ hk => ⟨hk.1.tree, hk.1.xlate, hk.1.same.fresh, hk.2⟩

/-- The kernel after boot, with an empty page table. -/
def emptyKvm : Kvm where
  vm := initVm
  initPageAllocator := 0xdead
  initPageAllocatorBase := 0
  kallocInited := true
  schedKstackTop _ := 0
  kernelPagetable := 0x80000000

/-- A range of a page of 2 MiB and a page of 4 KiB. -/
theorem kvmmap_maps_hugePage :
    Ends (kvmmap 0x80000000 0xffffffc080400000 0x80400000 0x201000 permData) emptyKvm
    fun _ k' => KernelTree k' 0x80000000 ∧
      (∀ a, Mmu.xlate k'.vm.pte 0x80000000 a =
        if a - 0xffffffc080400000 < 0x201000 then some (0x80400000 + (a - 0xffffffc080400000),
          ofInt permData ||| PTE_V)
        else Mmu.xlate emptyKvm.vm.pte 0x80000000 a) ∧
      k'.fresh <:+ emptyKvm.fresh ∧
      emptyKvm.fresh.length ≤ k'.fresh.length +
        emptyKvm.missing 0x80000000 (tablesFor 0xffffffc080400000
          ((0x201000 : Uint64).toNat / 4096)) := by
  have hok : FreshOk emptyKvm := by
    refine ⟨freeOk_initVm.nodup, fun p hp => ?_, fun hno => absurd hno (by decide)⟩
    have hmanages := freeOk_initVm.managed p hp
    obtain ⟨n, hn, rfl⟩ := List.mem_map.1 hp
    rw [List.mem_range] at hn
    refine ⟨hmanages.start, hmanages.ne_zero, ?_⟩
    rw [BitVec.toNat_ofNat]
    omega
  obtain ⟨htree, hnone⟩ :=
    @KernelTree.zero emptyKvm 0x80000000 (fun _ => rfl) (by decide +kernel) hok
  have hlen : emptyKvm.fresh.length = 32 := rfl
  have hneed : emptyKvm.missing 0x80000000 (tablesFor 0xffffffc080400000
    ((0x201000 : Uint64).toNat / 4096)) ≤
      emptyKvm.fresh.length := by
    refine (Kvm.missing_le (by decide)).trans ?_
    rw [hlen]
    decide
  have hmap : Mappable emptyKvm 0x80000000 0xffffffc080400000 0x80400000 0x201000 :=
    ⟨by decide, by decide, by decide, .inr (by decide), by decide, fun a _ => hnone a, hneed⟩
  have hflags : LeafFlags (ofInt permData) := by
    rw [show ofInt permData = PTE_A ||| PTE_D ||| PTE_R ||| PTE_W by decide]
    exact ⟨by decide, by decide, by decide⟩
  exact kvmmap_maps htree hmap hflags

end SignalOS
