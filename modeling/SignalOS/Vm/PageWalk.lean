import SignalOS.Vm.Create
import SignalOS.Vm.Remap

/-!
# Walks in the page tables that the kernel builds

* `sv39Slot`, `translate` — the translation of the hardware, which stops at the first entry that is
  invalid or a leaf.
* `WalkSafe` — a tree that walks can rely on, whatever its leaf entries are.
* `Built` — the address spaces that `mm_create` makes, after any calls of `mm_mappages`,
  `mm_mappageat` and `mm_remap`.
* `walk_finds` — **in all of them `walk` finds the slot that the translation reads**, one for each
  page, and changes no translation.
-/

namespace SignalOS

open Partial

/-! ## The translation -/

/-- The entry where the translation of `va` stops, from the table `t` on, with its level. -/
def sv39Slot (pte : Uint64 → Uint64 → Uint64) (va : Uint64) : Nat → Uint64 → Nat × PteRef
  | 0, t => (0, (t, PX 0 va))
  | level + 1, t =>
    let e := pte t (PX (level + 1) va)
    if e &&& PTE_V = 0 ∨ e &&& (PTE_R ||| PTE_X) ≠ 0 then (level + 1, (t, PX (level + 1) va))
    else sv39Slot pte va level (PTE2PA e)

/-- The entry that translates `va`, with its level; `none` if it is not valid. -/
def translate (pte : Uint64 → Uint64 → Uint64) (pgt va : Uint64) : Option (Nat × Uint64) :=
  let slot := sv39Slot pte va 2 pgt
  let e := pte slot.2.1 slot.2.2
  if e &&& PTE_V ≠ 0 then some (slot.1, e) else none

/-! ## Trees for walks -/

/-- The page that a leaf entry maps, for the user or for the kernel. -/
def leafAt (pte : Uint64 → Uint64 → Uint64) (pgt : Uint64) (v : Vpn) : Option Uint64 :=
  nextTable (entryAt pte pgt v)

/-- **A tree that walks can rely on**: its tables are different pages, and none of them is free or
mapped. -/
structure WalkSafe (vm : Vm) (pgt : Uint64) : Prop where
  tree : TableTree vm pgt
  inner : ∀ x t, x.Inner → tableAt vm.pte pgt x = some t → ∀ k : Index,
    vm.pte t k.word &&& PTE_V ≠ 0 → vm.pte t k.word &&& PTE_RWX = 0
  frames : ∀ v w p, leafAt vm.pte pgt v = some p → leafAt vm.pte pgt w = some p → v = w
  apart : ∀ x v p, tableAt vm.pte pgt x = some p → leafAt vm.pte pgt v ≠ some p
  taken : ∀ v p, leafAt vm.pte pgt v = some p → p ≠ 0 ∧ p ∉ vm.freelist

variable {vm vm' vm₁ vm₂ : Vm} {mm : Mm} {pgt p t e va pa flags : Uint64} {v : Vpn}
  {rest : List Uint64}

theorem WalkSafe.entry {x : Table} (h : WalkSafe vm pgt) (hx : x.Inner)
    (ht : tableAt vm.pte pgt x = some t) (k : Index) :
    vm.pte t k.word &&& PTE_V ≠ 0 → ¬ vm.pte t k.word &&& (PTE_R ||| PTE_X) ≠ 0 := by
  intro hvalid hleaf
  have hsub : PTE_RWX &&& (PTE_R ||| PTE_X) = PTE_R ||| PTE_X := by decide
  rw [← hsub, ← BitVec.and_assoc, h.inner x t hx ht k hvalid] at hleaf
  exact hleaf (BitVec.zero_and)

section Slot

variable {pte : Uint64 → Uint64 → Uint64} {level : Nat} {m : Uint64}

theorem sv39Slot_fault (h : nextTable (pte t (PX (level + 1) va)) = none) :
    sv39Slot pte va (level + 1) t = (level + 1, (t, PX (level + 1) va)) := by
  have hinvalid : pte t (PX (level + 1) va) &&& PTE_V = 0 := by
    by_contra hvalid
    rw [nextTable, if_pos hvalid] at h
    exact absurd h (by simp)
  rw [sv39Slot]
  exact if_pos (.inl hinvalid)

theorem sv39Slot_table (h : nextTable (pte t (PX (level + 1) va)) = some m)
    (hleaf : ¬ pte t (PX (level + 1) va) &&& (PTE_R ||| PTE_X) ≠ 0) :
    sv39Slot pte va (level + 1) t = sv39Slot pte va level m := by
  have hvalid := valid_of_nextTable h
  rw [nextTable, if_pos hvalid, Option.some.injEq] at h
  rw [sv39Slot]
  simp only [h]
  exact if_neg (not_or.2 ⟨hvalid, hleaf⟩)

theorem translate_fault (h : nextTable (pte t (PX (level + 1) va)) = none)
    (hslot : sv39Slot pte va 2 pgt = sv39Slot pte va (level + 1) t) :
    translate pte pgt va = none := by
  rw [translate, hslot, sv39Slot_fault h]
  refine if_neg fun hvalid => ?_
  rw [nextTable, if_pos hvalid] at h
  exact absurd h (by simp)

end Slot

theorem WalkSafe.root_table {m : Uint64} (h : WalkSafe vm pgt)
    (hm : tableAt vm.pte pgt (.mid (vpn va).l2) = some m) :
    sv39Slot vm.pte va 2 pgt = sv39Slot vm.pte va 1 m := by
  have hnext : nextTable (vm.pte pgt (PX 2 va)) = some m := by rw [PX_eq]; exact hm
  refine sv39Slot_table hnext ?_
  rw [PX_eq] at hnext ⊢
  exact h.entry (x := .root) trivial rfl _ (valid_of_nextTable hnext)

/-- The translation comes to the last level if there are tables for it. -/
theorem WalkSafe.slot (h : WalkSafe vm pgt)
    (ht : tableAt vm.pte pgt (.last (vpn va).l2 (vpn va).l1) = some t) :
    sv39Slot vm.pte va 2 pgt = (0, (t, (vpn va).l0.word)) := by
  obtain ⟨m, hm, hlast⟩ := Option.bind_eq_some_iff.1 ht
  have hnext : nextTable (vm.pte m (PX 1 va)) = some t := by rw [PX_eq]; exact hlast
  rw [h.root_table hm, sv39Slot_table hnext, sv39Slot, PX_eq]
  · rfl
  · rw [PX_eq] at hnext ⊢
    exact h.entry (x := .mid (vpn va).l2) trivial hm _ (valid_of_nextTable hnext)

/-- **The translation in terms of the leaf entries.** -/
theorem WalkSafe.translate_eq (h : WalkSafe vm pgt) (va : Uint64) : translate vm.pte pgt va =
    if entryAt vm.pte pgt (vpn va) &&& PTE_V ≠ 0 then some (0, entryAt vm.pte pgt (vpn va))
      else none := by
  cases ht : tableAt vm.pte pgt (.last (vpn va).l2 (vpn va).l1) with
  | some t => rw [entryAt_eq ht, translate, h.slot ht]
  | none =>
    rw [entryAt_none ht, if_neg (not_not.2 zero_and_V)]
    cases hm : tableAt vm.pte pgt (.mid (vpn va).l2) with
    | none =>
      refine translate_fault ?_ rfl
      rw [PX_eq]
      exact hm
    | some m =>
      refine translate_fault ?_ (h.root_table hm)
      rw [tableAt_last, hm] at ht
      rw [PX_eq]
      exact ht

/-! ## Stores to the leaf entries -/

theorem leafAt_congr {pte pte' : Uint64 → Uint64 → Uint64}
    (h : entryAt pte' pgt = entryAt pte pgt) :
    leafAt pte' pgt = leafAt pte pgt := by
  funext v
  rw [leafAt, leafAt, h]

/-- What a store to a leaf entry needs to keep a tree safe: the page that is mapped is no other
one's, and only the page that was mapped may have been freed. -/
theorem WalkSafe.store (h : WalkSafe vm pgt) (ht : tableAt vm.pte pgt (.last v.l2 v.l1) = some t)
    (hpte : vm'.pte = (vm.setPte t v.l0.word e).pte) (hfree : FreeOk vm')
    (hlist : ∀ q ∈ vm'.freelist, q ∈ vm.freelist ∨ leafAt vm.pte pgt v = some q)
    (hnew : ∀ q, nextTable e = some q → (q ≠ 0 ∧ q ∉ vm'.freelist) ∧
    (∀ x, tableAt vm.pte pgt x ≠ some q) ∧
      ∀ w, w ≠ v → leafAt vm.pte pgt w ≠ some q) : WalkSafe vm' pgt := by
  have htables : tableAt vm'.pte pgt = tableAt vm.pte pgt := by
    rw [hpte]
    exact tableAt_setPte h.tree.tables ht _ _
  have hleaf (w : Vpn) : leafAt vm'.pte pgt w = if w = v then nextTable e
      else leafAt vm.pte pgt w := by
    rw [leafAt, hpte, entryAt_setPte h.tree.tables ht, Function.update_apply]
    split
    · rfl
    · rfl
  refine ⟨⟨?_, hfree, fun x q hx hq => ?_⟩, fun x u hx hu k => ?_, fun w w' q hw hw' => ?_,
    fun x w q hx hw => ?_,
    fun w q hw => ?_⟩
  · rw [TablesApart, htables]
    exact h.tree.tables
  · rw [htables] at hx
    rcases hlist q hq with hq | hq
    · exact h.tree.taken x q hx hq
    · exact h.apart x v q hx hq
  · rw [htables] at hu
    have hne : u ≠ t := h.tree.tables.ne hu ht (by rintro rfl; exact hx)
    rw [hpte, setPte_of_ne hne]
    exact h.inner x u hx hu k
  · rw [hleaf] at hw hw'
    split at hw
    · split at hw'
      · rename_i h₁ h₂
        exact h₁.trans h₂.symm
      · rename_i hne
        exact absurd hw' ((hnew q hw).2.2 w' hne)
    · split at hw'
      · rename_i hne _
        exact absurd hw ((hnew q hw').2.2 w hne)
      · exact h.frames w w' q hw hw'
  · rw [htables] at hx
    rw [hleaf] at hw
    split at hw
    · exact (hnew q hw).2.1 x hx
    · exact h.apart x w q hx hw
  · rw [hleaf] at hw
    split at hw
    · exact (hnew q hw).1
    · rename_i hne
      refine ⟨(h.taken w q hw).1, fun hq => ?_⟩
      rcases hlist q hq with hq | hq
      · exact (h.taken w q hw).2 hq
      · exact hne (h.frames w v q hw hq)

/-- The safety of a tree depends on the tables and the free list alone. -/
theorem WalkSafe.of_same (h : WalkSafe vm pgt) (hsame : SameMemory vm vm') : WalkSafe vm' pgt := by
  refine ⟨⟨?_, hsame.freeOk h.tree.free, ?_⟩, ?_, ?_, ?_, ?_⟩
  · rw [hsame.pte]
    exact h.tree.tables
  · rw [hsame.pte, hsame.freelist]
    exact h.tree.taken
  · rw [hsame.pte]
    exact h.inner
  · rw [hsame.pte]
    exact h.frames
  · rw [hsame.pte]
    exact h.apart
  · rw [hsame.pte, hsame.freelist]
    exact h.taken

theorem FreeOk.of_static (h : FreeOk vm) (hfree : vm'.freelist = vm.freelist)
    (hstatic : Static vm vm') : FreeOk vm' :=
  ⟨hfree ▸ h.nodup, fun q hq => hstatic.manages (h.managed q (hfree ▸ hq))⟩

theorem nextTable_mapping {flags : Uint64} (hp : PageStart p) (hflags : IsFlags flags) :
    nextTable (PA2PTE p ||| flags ||| PTE_V) = some p := by
  rw [nextTable, if_pos (or_V_ne_zero _), PTE2PA_entry hp hflags]

/-- A page that a tree does not use. -/
structure Unused (vm : Vm) (pgt p : Uint64) : Prop where
  start : PageStart p
  ne_zero : p ≠ 0
  free : p ∉ vm.freelist
  table : ∀ x, tableAt vm.pte pgt x ≠ some p
  leaf : ∀ v, leafAt vm.pte pgt v ≠ some p

/-- A page is mapped that the tree does not use. -/
theorem WalkSafe.map (h : WalkSafe vm pgt) (ht : tableAt vm.pte pgt (.last v.l2 v.l1) = some t)
    (hp : Unused vm pgt p) (hflags : IsFlags flags) :
    WalkSafe (vm.setPte t v.l0.word (PA2PTE p ||| flags ||| PTE_V)) pgt := by
  refine h.store ht rfl (h.tree.free.of_static rfl ⟨rfl, rfl, rfl, rfl⟩) (fun q hq => .inl hq)
    fun q hq => ?_
  rw [nextTable_mapping hp.start hflags, Option.some.injEq] at hq
  subst hq
  exact ⟨⟨hp.ne_zero, hp.free⟩, hp.table, fun w _ => hp.leaf w⟩

/-- A page is mapped that was free. -/
theorem WalkSafe.mapNew (h : WalkSafe vm pgt) (ht : tableAt vm.pte pgt (.last v.l2 v.l1) = some t)
    (hfree : vm.freelist = p :: rest) (hflags : IsFlags flags) :
    WalkSafe ((vm.take p rest).setPte t v.l0.word (PA2PTE p ||| flags ||| PTE_V)) pgt := by
  have hmem : p ∈ vm.freelist := by rw [hfree]; exact List.mem_cons_self
  have hmanaged := h.tree.free.managed p hmem
  have hnodup := h.tree.free.nodup
  rw [hfree, List.nodup_cons] at hnodup
  refine h.store ht rfl (h.tree.free.take hfree ⟨rfl, rfl, rfl, rfl⟩ rfl) (fun q hq => .inl ?_)
    fun q hq => ?_
  · rw [hfree]
    exact List.mem_cons_of_mem _ hq
  · rw [nextTable_mapping hmanaged.start hflags, Option.some.injEq] at hq
    subst hq
    exact ⟨⟨hmanaged.ne_zero, hnodup.1⟩, fun x hx => h.tree.taken x _ hx hmem,
      fun w _ hw => (h.taken w _ hw).2 hmem⟩

/-- A page is freed and unmapped. -/
theorem WalkSafe.unmap (h : WalkSafe vm pgt) (ht : tableAt vm.pte pgt (.last v.l2 v.l1) = some t)
    (hleaf : leafAt vm.pte pgt v = some p) (hp : vm.Manages p) :
    WalkSafe ((vm.give p).setPte t v.l0.word 0) pgt := by
  refine h.store ht rfl ⟨?_, fun q hq => ?_⟩ (fun q hq => ?_) fun q hq => ?_
  · exact List.nodup_cons.2 ⟨(h.taken v p hleaf).2, h.tree.free.nodup⟩
  · have hstatic : Static vm ((vm.give p).setPte t v.l0.word 0) := ⟨rfl, rfl, rfl, rfl⟩
    rcases List.mem_cons.1 hq with rfl | hq
    · exact hstatic.manages hp
    · exact hstatic.manages (h.tree.free.managed q hq)
  · rcases List.mem_cons.1 hq with rfl | hq
    · exact .inr hleaf
    · exact .inl hq
  · rw [nextTable_zero] at hq
    exact absurd hq (by simp)

/-- The flags of an entry are changed. -/
theorem WalkSafe.reflag (h : WalkSafe vm pgt) (ht : tableAt vm.pte pgt (.last v.l2 v.l1) = some t)
    (hflags : IsFlags flags) (hvalid : entryAt vm.pte pgt v &&& PTE_V ≠ 0) :
    WalkSafe (vm.setPte t v.l0.word (reflag flags (entryAt vm.pte pgt v))) pgt := by
  have hV : ~~~PTE_RWX &&& PTE_V = PTE_V := by decide
  have hsame : nextTable (SignalOS.reflag flags (entryAt vm.pte pgt v)) = leafAt vm.pte pgt v := by
    rw [leafAt, nextTable, nextTable, if_pos (reflag_and_ne_zero hV hvalid), if_pos hvalid,
      PTE2PA_reflag hflags]
  refine h.store ht rfl (h.tree.free.of_static rfl ⟨rfl, rfl, rfl, rfl⟩) (fun q hq => .inl hq)
    fun q hq => ?_
  rw [hsame] at hq
  exact ⟨h.taken v q hq, fun x hx => h.apart x v q hx hq,
    fun w hne hw => hne (h.frames w v q hw hq)⟩

/-! ## Walks -/

/-- What a walk may do to a safe tree: add tables that were free pages. -/
structure Widened (pgt : Uint64) (vm vm' : Vm) : Prop where
  safe : WalkSafe vm' pgt
  entries : entryAt vm'.pte pgt = entryAt vm.pte pgt
  tables : ∀ x t, tableAt vm.pte pgt x = some t → tableAt vm'.pte pgt x = some t
  fresh : ∀ x t, tableAt vm'.pte pgt x = some t → tableAt vm.pte pgt x = some t ∨ t ∈ vm.freelist
  list : ∀ q ∈ vm'.freelist, q ∈ vm.freelist

theorem Widened.refl (h : WalkSafe vm pgt) : Widened pgt vm vm :=
  ⟨h, rfl, fun _ _ ht => ht, fun _ _ ht => .inl ht, fun _ hq => hq⟩

theorem Widened.trans (h : Widened pgt vm vm₁) (h' : Widened pgt vm₁ vm₂) :
    Widened pgt vm vm₂ := by
  refine ⟨h'.safe, h'.entries.trans h.entries, fun x t ht => h'.tables x t (h.tables x t ht),
    fun x t ht => ?_,
    fun q hq => h.list q (h'.list q hq)⟩
  rcases h'.fresh x t ht with ht | ht
  · exact h.fresh x t ht
  · exact .inr (h.list t ht)

/-- A page stays unused if a walk does not take it. -/
theorem Widened.unused (h : Widened pgt vm vm') (hp : Unused vm pgt p) : Unused vm' pgt p := by
  refine ⟨hp.start, hp.ne_zero, fun hq => hp.free (h.list p hq), fun x hx => ?_, fun v => ?_⟩
  · rcases h.fresh x p hx with hx | hx
    · exact hp.table x hx
    · exact hp.free hx
  · rw [leafAt_congr h.entries]
    exact hp.leaf v

/-- **A new table keeps a tree safe.** -/
theorem WalkSafe.addsTable (h : WalkSafe vm pgt) (hadd : AddsTable pgt vm vm') :
    Widened pgt vm vm' := by
  obtain ⟨p, rest, t, k, x, y, hfree, ht, hext, rfl⟩ := hadd
  set vm' := (vm.take p rest).link p t k.word (PA2PTE p ||| PTE_V)
  have hmem : p ∈ vm.freelist := by rw [hfree]; exact List.mem_cons_self
  have hnodup := h.tree.free.nodup
  rw [hfree, List.nodup_cons] at hnodup
  have hsub (q : Uint64) (hq : q ∈ rest) : q ∈ vm.freelist := by
    rw [hfree]; exact List.mem_cons_of_mem _ hq
  have hnotTable (z : Table) : tableAt vm.pte pgt z ≠ some p := fun hz => h.tree.taken z p hz hmem
  have htp : t ≠ p := fun heq => hnotTable x (heq ▸ ht)
  have htable (z : Table) (q : Uint64) (hz : tableAt vm'.pte pgt z = some q) :
      tableAt vm.pte pgt z = some q ∨ z = y ∧ q = p := by
    rw [hext.tables, Function.update_apply] at hz
    split at hz
    · exact .inr ⟨‹_›, (Option.some.inj hz).symm⟩
    · exact .inl hz
  have hleaf : leafAt vm'.pte pgt = leafAt vm.pte pgt := leafAt_congr hext.entries
  have htaken (z : Table) (q : Uint64) (hz : tableAt vm'.pte pgt z = some q) : q ∉ rest := by
    rcases htable z q hz with hz | ⟨-, rfl⟩
    · exact fun hq => h.tree.taken z q hz (hsub q hq)
    · exact hnodup.1
  refine ⟨⟨⟨?_, h.tree.free.take hfree ⟨rfl, rfl, rfl, rfl⟩ rfl, htaken⟩, ?_, ?_, ?_, ?_⟩,
    hext.entries, ?_, ?_, hsub⟩
  · intro z w q hz' hw'
    rcases htable z q hz' with hz | ⟨hzy, hqp⟩
    · rcases htable w q hw' with hw | ⟨-, hqp⟩
      · exact h.tree.tables z w q hz hw
      · exact absurd (hqp ▸ hz) (hnotTable z)
    · rcases htable w q hw' with hw | ⟨hwy, -⟩
      · exact absurd (hqp ▸ hw) (hnotTable w)
      · exact hzy.trans hwy.symm
  · intro z q hz hq' n hvalid
    have hpte : vm'.pte = (vm.link p t k.word (PA2PTE p ||| PTE_V)).pte := rfl
    rw [hpte] at hvalid ⊢
    rcases htable z q hq' with hq | ⟨-, rfl⟩
    · have hqp : q ≠ p := fun heq => hnotTable z (heq ▸ hq)
      by_cases hqt : q = t
      · subst hqt
        rw [link_pte_table hqp] at hvalid ⊢
        by_cases hnk : n.word = k.word
        · rw [hnk, Function.update_self, BitVec.and_or_distrib_right, PA2PTE_and isFlags_RWX]
          decide
        · rw [Function.update_of_ne hnk] at hvalid ⊢
          exact h.inner z q hz hq n hvalid
      · rw [link_pte_of_ne hqp hqt] at hvalid ⊢
        exact h.inner z q hz hq n hvalid
    · rw [link_pte_new htp.symm] at hvalid
      exact absurd zero_and_V hvalid
  · rw [hleaf]
    exact h.frames
  · intro z w q hz hw
    rw [hleaf] at hw
    rcases htable z q hz with hz | ⟨-, rfl⟩
    · exact h.apart z w q hz hw
    · exact (h.taken w q hw).2 hmem
  · intro w q hw
    rw [hleaf] at hw
    exact ⟨(h.taken w q hw).1, fun hq => (h.taken w q hw).2 (hsub q hq)⟩
  · intro z q hz
    rw [hext.tables, Function.update_of_ne]
    · exact hz
    · rintro rfl
      rw [hext.none] at hz
      exact absurd hz (by simp)
  · intro z q hz
    rcases htable z q hz with hz | ⟨-, rfl⟩
    · exact .inl hz
    · exact .inr hmem

/-- A walk in a safe tree. -/
theorem walk_widens (h : WalkSafe vm mm.pgt) (hva : IS_USER_VA va = true) :
    Ends (walk mm va true) vm fun r vm' => Widened mm.pgt vm vm' ∧
      (r = none ∨ ∃ t, r = some (t, (vpn va).l0.word) ∧
        tableAt vm'.pte mm.pgt (.last (vpn va).l2 (vpn va).l1) = some t) :=
  walk_rule (I := Widened mm.pgt vm) (fun _ hwide => hwide.safe.tree)
    (fun _ _ hwide hadd => hwide.trans (hwide.safe.addsTable hadd)) rfl (Widened.refl h) hva

/-- What a walk with any address returns: the slot of a leaf entry, if anything. -/
def FindsSlot (vm : Vm) (pgt : Uint64) (r : Option PteRef) : Prop :=
  ∀ slot, r = some slot → ∃ (v : Vpn) (t : Uint64), slot = (t, v.l0.word) ∧
    tableAt vm.pte pgt (.last v.l2 v.l1) = some t

theorem walk_slot (h : WalkSafe vm mm.pgt) (va : Uint64) (alloc : Bool) :
    Ends (walk mm va alloc) vm fun r vm' => Widened mm.pgt vm vm' ∧ FindsSlot vm' mm.pgt r := by
  cases hva : IS_USER_VA va with
  | false =>
    refine .of_eq (a := none) (t := vm) ?_ ⟨Widened.refl h, fun slot hslot => absurd hslot
      (by simp)⟩
    rw [walk, hva]
    rfl
  | true =>
    cases alloc with
    | false =>
      refine .of_eq (walk_find hva vm mm) ⟨Widened.refl h, fun slot hslot => ?_⟩
      obtain ⟨t, ht, rfl⟩ := Option.map_eq_some_iff.1 hslot
      exact ⟨vpn va, t, rfl, ht⟩
    | true =>
      refine (walk_widens h hva).mono fun r vm' hstep => ⟨hstep.1, fun slot hslot => ?_⟩
      have hr := hstep.2
      rcases hr with rfl | ⟨t, rfl, ht⟩
      · exact absurd hslot (by simp)
      · obtain rfl := Option.some.inj hslot
        exact ⟨vpn va, t, rfl, ht⟩

/-! ## The operations on an address space -/

theorem kfreepage_unless (hp : p ≠ 0) :
    EndsUnless True (kfreepage p) vm fun _ vm' => vm.Manages p ∧ vm' = vm.give p := by
  by_cases hmanaged : vm.Manages p
  · exact .inr (.of_eq (kfreepage_eq hmanaged) ⟨hmanaged, rfl⟩)
  · refine .fail trivial (if_pos ?_)
    by_contra hpass
    simp only [Bool.or_eq_true, Bool.not_eq_true', Bool.and_eq_false_iff, decide_eq_false_iff_not,
      not_or,
      Bool.not_eq_false, not_not] at hpass
    exact hmanaged ⟨PGALIGNED_iff.1 hpass.1, hp, hpass.2.1, hpass.2.2⟩

/-- Freeing a page and clearing its entry, as the loops that unmap pages do. -/
theorem unmap_safe (h : WalkSafe vm pgt) (ht : tableAt vm.pte pgt (.last v.l2 v.l1) = some t)
    (hvalid : entryAt vm.pte pgt v &&& PTE_V ≠ 0) :
    EndsUnless True (do kfreepage (PTE2PA (entryAt vm.pte pgt v)); storePte (t, v.l0.word) 0) vm
      fun _ vm' =>
      WalkSafe vm' pgt := by
  have hleaf : leafAt vm.pte pgt v = some (PTE2PA (entryAt vm.pte pgt v)) := by
    rw [leafAt, nextTable, if_pos hvalid]
  refine .bind (kfreepage_unless (h.taken v _ hleaf).1) fun _ vm₁ hstep => ?_
  obtain ⟨hmanaged, heq⟩ := hstep
  subst heq
  exact .inr (.of_eq rfl (h.unmap ht hleaf hmanaged))

/-- Reading a leaf entry. -/
theorem loadPte_entry (ht : tableAt vm.pte pgt (.last v.l2 v.l1) = some t) :
    loadPte (t, v.l0.word) vm = some (entryAt vm.pte pgt v, vm) := by
  rw [entryAt_eq ht]
  rfl

theorem kassert_safe (h : WalkSafe vm pgt) (c : Bool) :
    EndsUnless True (kassert c) vm fun _ vm' => WalkSafe vm' pgt := by
  rw [kassert]
  exact .ite (fun _ => .pure h) fun _ => .fail trivial rfl

/-- `freevma` keeps a tree safe. -/
theorem freevma_safe (h : WalkSafe vm mm.pgt) (vma : Vma) :
    EndsUnless True (freevma mm vma true) vm fun _ vm' => WalkSafe vm' mm.pgt := by
  refine .bind (kassert_safe h _) fun _ vm₁ h₁ => ?_
  refine .forM_keeps h₁ fun va _ vm₂ h₂ => ?_
  refine .bind ((walk_slot h₂ va false).unless True) fun r vm₃ hstep => ?_
  obtain ⟨hwide, hslot⟩ := hstep
  cases r with
  | none => exact .pure hwide.safe
  | some slot =>
    obtain ⟨v, t, rfl, ht⟩ := hslot slot rfl
    refine .bind_of_eq (loadPte_entry ht) (.ite (fun hvalid => ?_) fun _ => .pure hwide.safe)
    exact unmap_safe hwide.safe ht hvalid

/-- The loop of `mm_mappages` does. -/
theorem mmMappagesLoop_safe {vma : Vma} (h : WalkSafe vm mm.pgt) (hflags : IsFlags vma.pteFlags)
    (pages : List Uint64) :
    EndsUnless True (mmMappagesLoop mm vma pages) vm fun _ vm' => WalkSafe vm' mm.pgt := by
  induction pages generalizing vm with
  | nil => exact .pure h
  | cons va rest ih =>
    refine .bind ((walk_slot h va true).unless True) fun r vm₁ hstep => ?_
    obtain ⟨hwide, hslot⟩ := hstep
    cases r with
    | none => exact .pure hwide.safe
    | some slot =>
      obtain ⟨v, t, rfl, ht⟩ := hslot slot rfl
      refine .bind_of_eq (loadPte_entry ht) (.ite (fun _ => .pure hwide.safe) fun _ => ?_)
      cases hfree : vm₁.freelist with
      | nil =>
        exact .bind_of_eq (kallocpage_nil hfree) (.ite (fun _ => .pure hwide.safe) fun hne =>
          absurd rfl hne)
      | cons p free =>
        have hmanaged := hwide.safe.tree.free.managed p (by rw [hfree]; exact List.mem_cons_self)
        refine .bind_of_eq (kallocpage_cons hfree)
          (.ite (fun hzero => absurd hzero hmanaged.ne_zero) fun _ => ?_)
        exact .bind_of_eq rfl (ih (hwide.safe.mapNew ht hfree hflags))

/-- `mm_mappages` keeps a tree safe. -/
theorem mmMappages_safe {vma : Vma} (h : WalkSafe vm mm.pgt) (hflags : IsFlags vma.pteFlags) :
    EndsUnless True (mmMappages mm vma) vm fun r vm' => r.2.pgt = mm.pgt ∧
      WalkSafe vm' mm.pgt := by
  refine .bind (kassert_safe h _) fun _ vm₁ h₁ => .bind (kassert_safe h₁ _) fun _ vm₂ h₂ =>
    .bind (kassert_safe h₂ _) fun _ vm₃ h₃ => .ite (fun _ => .pure ⟨rfl, h₃⟩) fun _ => ?_
  refine .bind (mmMappagesLoop_safe h₃ hflags _) fun r vm₄ h₄ => .ite (fun _ => ?_) fun _ =>
    .pure ⟨rfl, h₄⟩
  refine .bind (freevma_safe h₄ vma) fun _ vm₅ h₅ => ?_
  refine .bind ((kfreeVma_ends vma.addr vm₅).unless True) fun _ vm₆ hfreed => .pure ⟨rfl, ?_⟩
  exact h₅.of_same hfreed.1

/-- The first loop of `mm_remap` does. -/
theorem mmRemapCreate_safe {start stop : Uint64} (h : WalkSafe vm mm.pgt) (hflags : IsFlags flags)
    (pages : List Uint64) :
    EndsUnless True (mmRemapCreate mm start stop flags pages) vm fun _ vm' =>
      WalkSafe vm' mm.pgt := by
  induction pages generalizing vm with
  | nil => exact .pure h
  | cons va rest ih =>
    refine .ite (fun _ => ih h) fun _ => ?_
    refine .bind ((walk_slot h va true).unless True) fun r vm₁ hstep => ?_
    obtain ⟨hwide, hslot⟩ := hstep
    cases r with
    | none => exact .pure hwide.safe
    | some slot =>
      obtain ⟨v, t, rfl, ht⟩ := hslot slot rfl
      refine .bind_of_eq (loadPte_entry ht) (.ite (fun hvalid => ?_) fun _ => ?_)
      · exact .bind_of_eq rfl (ih (hwide.safe.reflag ht hflags hvalid))
      cases hfree : vm₁.freelist with
      | nil =>
        exact .bind_of_eq (kallocpage_nil hfree) (.ite (fun _ => .pure hwide.safe) fun hne =>
          absurd rfl hne)
      | cons p free =>
        have hmanaged := hwide.safe.tree.free.managed p (by rw [hfree]; exact List.mem_cons_self)
        refine .bind_of_eq (kallocpage_cons hfree)
          (.ite (fun hzero => absurd hzero hmanaged.ne_zero) fun _ => ?_)
        exact .bind_of_eq rfl (ih (hwide.safe.mapNew ht hfree hflags))

/-- The second loop does. -/
theorem mmRemapRemove_safe {start stop : Uint64} (h : WalkSafe vm mm.pgt) (pages : List Uint64) :
    EndsUnless True (mmRemapRemove mm start stop pages) vm fun _ vm' => WalkSafe vm' mm.pgt := by
  induction pages generalizing vm with
  | nil => exact .pure h
  | cons va rest ih =>
    refine .ite (fun _ => ?_) fun _ => ih h
    refine .bind ((walk_slot h va false).unless True) fun r vm₁ hstep => ?_
    obtain ⟨hwide, hslot⟩ := hstep
    cases r with
    | none => exact .pure hwide.safe
    | some slot =>
      obtain ⟨v, t, rfl, ht⟩ := hslot slot rfl
      refine .bind_of_eq (loadPte_entry ht) (.ite (fun hvalid => ?_) fun _ => .pure hwide.safe)
      rw [← bind_assoc]
      exact .bind (unmap_safe hwide.safe ht hvalid) fun _ vm₂ h₂ => ih h₂

/-- A turn of the loop after the label `err` does. -/
theorem mmRemapRestore_safe {vma : Vma} (h : WalkSafe vm mm.pgt) (hflags : IsFlags vma.pteFlags)
    (va : Uint64) :
    EndsUnless True (mmRemapRestore mm vma va) vm fun _ vm' => WalkSafe vm' mm.pgt := by
  refine .bind ((walk_slot h va false).unless True) fun r vm₁ hstep => ?_
  obtain ⟨hwide, hslot⟩ := hstep
  cases r with
  | none => exact kassert_safe hwide.safe _
  | some slot =>
    obtain ⟨v, t, rfl, ht⟩ := hslot slot rfl
    refine .bind_of_eq (loadPte_entry ht) (.ite (fun _ => .ite (fun hvalid => ?_) fun _ =>
      .pure hwide.safe) fun _ => ?_)
    · exact unmap_safe hwide.safe ht hvalid
    · by_cases hvalid : entryAt vm₁.pte mm.pgt v &&& PTE_V ≠ 0
      · refine .bind_of_eq (kassert_true (bne_iff_ne.2 hvalid)) (.inr (.of_eq rfl ?_))
        exact hwide.safe.reflag ht hflags hvalid
      · refine .fail trivial ?_
        show (kassert _ vm₁).bind _ = none
        rw [kassert, if_neg (by simpa using hvalid)]
        rfl

/-- `mm_remap` keeps a tree safe. -/
theorem mmRemap_safe {vma : Vma} (h : WalkSafe vm mm.pgt) (hold : IsFlags vma.pteFlags)
    (hflags : IsFlags flags)
    (start stop : Uint64) :
    EndsUnless True (mmRemap mm vma start stop flags) vm fun r vm' => r.2.pgt = mm.pgt ∧
      WalkSafe vm' mm.pgt := by
  refine .bind (kassert_safe h _) fun _ vm₁ h₁ => .bind (kassert_safe h₁ _) fun _ vm₂ h₂ =>
    .ite (fun _ => .pure ⟨rfl, h₂⟩) fun _ => ?_
  refine .bind (mmRemapCreate_safe h₂ hflags _) fun created vm₃ h₃ =>
    .ite (fun _ => ?_) fun _ => ?_
  · exact .bind (mmRemapRemove_safe h₃ _) fun removed vm₄ h₄ =>
      .ite (fun _ => .pure ⟨rfl, h₄⟩) fun _ => .pure ⟨rfl, h₄⟩
  · refine .bind (Q := fun _ vm' => WalkSafe vm' mm.pgt) ?_ fun _ vm₄ h₄ => .pure ⟨rfl, h₄⟩
    exact .forM_keeps h₃ fun va _ vm₄ h₄ => mmRemapRestore_safe h₄ hold va

/-- `mm_mappageat` keeps a tree safe if the page is used for nothing else, and uses no other page
but free ones. -/
theorem mmMappageat_safe (h : WalkSafe vm mm.pgt) (hpa : Unused vm mm.pgt pa)
    (hflags : IsFlags flags) :
    EndsUnless True (mmMappageat mm va pa flags) vm fun _ vm' => WalkSafe vm' mm.pgt ∧
      ∀ p, Unused vm mm.pgt p → p ≠ pa → Unused vm' mm.pgt p := by
  refine .ite (fun _ => .fail trivial rfl) fun _ => .ite (fun _ => .pure ⟨h, fun _ hp _ => hp⟩)
    fun _ => ?_
  refine .bind ((walk_slot h va true).unless True) fun r vm₁ hstep => ?_
  obtain ⟨hwide, hslot⟩ := hstep
  cases r with
  | none => exact .pure ⟨hwide.safe, fun p hp _ => hwide.unused hp⟩
  | some slot =>
    obtain ⟨v, t, rfl, ht⟩ := hslot slot rfl
    refine .bind_of_eq (loadPte_entry ht) (.ite (fun _ => ?_) fun _ => ?_)
    · exact .pure ⟨hwide.safe, fun p hp _ => hwide.unused hp⟩
    · refine .bind_of_eq rfl (.pure ⟨hwide.safe.map ht (hwide.unused hpa) hflags,
        fun p hp hne => ?_⟩)
      have hpage := hwide.unused hp
      refine ⟨hpage.start, hpage.ne_zero, hpage.free, fun x => ?_, fun w => ?_⟩
      · rw [tableAt_setPte hwide.safe.tree.tables ht]
        exact hpage.table x
      · rw [leafAt, entryAt_setPte hwide.safe.tree.tables ht, Function.update_apply]
        split
        · rw [nextTable_mapping hpa.start hflags, ne_eq, Option.some.injEq]
          exact hne.symm
        · exact hpage.leaf w

/-! ## Address spaces that the kernel builds -/

/-- A page that is not the allocator's to give. -/
structure Reserved (vm : Vm) (p : Uint64) : Prop where
  start : PageStart p
  ne_zero : p ≠ 0
  free : p ∉ vm.freelist

theorem Reserved.unused_root {root : Uint64} (hp : Reserved vm p) (hfree : FreeOk vm)
    (hlist : vm.freelist = root :: rest) :
    Unused ((vm.take root rest).zeroTable root) root p := by
  obtain ⟨hgood, hevolves, hentries, -⟩ := Good.root hfree hlist
  refine ⟨hp.start, hp.ne_zero, fun hin => hp.free ?_, fun x hx => hp.free ?_, fun v => ?_⟩
  · rw [hlist]
    exact List.mem_cons_of_mem _ hin
  · exact ((hevolves.pages p).1 (.inr (.inl ⟨x, hx⟩))).resolve_right id
  · rw [leafAt, hentries, nextTable_zero]
    exact fun hno => absurd hno (by simp)

theorem Good.walkSafe_empty (h : Good vm pgt) (hentries : entryAt vm.pte pgt = fun _ => 0) :
    WalkSafe vm pgt := by
  have hleaf (v : Vpn) : leafAt vm.pte pgt v = none := by rw [leafAt, hentries, nextTable_zero]
  refine ⟨h.tree, h.inner, fun v w q hv => ?_, fun x v q _ hv => ?_, fun v q hv => ?_⟩
  all_goals
    rw [hleaf] at hv
    exact absurd hv (by simp)

theorem endsUnless_true {α : Type} (x : VmM α) (vm : Vm) :
    EndsUnless True x vm fun _ _ => True := by
  cases hx : x vm with
  | none => exact .fail trivial hx
  | some r => exact .inr ⟨r.1, r.2, hx, trivial⟩

/-- `mm_create` makes a safe tree. -/
theorem mmCreate_safe {tf : Uint64} (hfree : FreeOk vm) (htramp : Reserved vm vm.trampoline)
    (htf : Reserved vm tf)
    (hne : tf ≠ vm.trampoline) :
    EndsUnless True (mmCreate tf) vm fun r vm' => ∀ mm, r = some mm → WalkSafe vm' mm.pgt := by
  have hfail (mm : Mm) (vm : Vm) : EndsUnless True (mmCreate.freeMm mm) vm fun r vm' =>
      ∀ mm, r = some mm → WalkSafe vm' mm.pgt := by
    refine .bind (endsUnless_true _ vm) fun _ vm₁ _ => .bind (endsUnless_true _ vm₁) fun _ vm₂ _ =>
      .pure ?_
    exact fun mm hmm => absurd hmm (by simp)
  cases hpool : vm.mmAllocator with
  | nil =>
    refine .fail trivial ?_
    show (kallocMm vm).bind _ = none
    rw [kallocMm, kalloc, hpool]
    rfl
  | cons obj pool =>
    have halloc : kallocMm vm = some (obj, { vm with mmAllocator := pool }) := by
      rw [kallocMm, kalloc, hpool]
    have hsame : SameMemory vm { vm with mmAllocator := pool } :=
      ⟨rfl, rfl, rfl, ⟨rfl, rfl, rfl, rfl⟩⟩
    refine .bind_of_eq halloc ?_
    have hfree' := hsame.freeOk hfree
    have htramp' : Reserved { vm with mmAllocator := pool } vm.trampoline :=
      ⟨htramp.start, htramp.ne_zero, htramp.free⟩
    have htf' : Reserved { vm with mmAllocator := pool } tf := ⟨htf.start, htf.ne_zero, htf.free⟩
    have htrampoline : ({ vm with mmAllocator := pool } : Vm).trampoline = vm.trampoline := rfl
    generalize ({ vm with mmAllocator := pool } : Vm) = vm₀ at hfree' htramp' htf' htrampoline ⊢
    cases hlist : vm₀.freelist with
    | nil =>
      exact .bind_of_eq (kallocpage_nil hlist) (.ite (fun _ => .fail trivial rfl) fun hno =>
        absurd rfl hno)
    | cons root rest =>
      have hmanaged := hfree'.managed root (by rw [hlist]; exact List.mem_cons_self)
      refine .bind_of_eq (kallocpage_cons hlist) (.ite (fun hzero => absurd hzero hmanaged.ne_zero)
        fun _ => ?_)
      refine .bind_of_eq rfl (.bind_of_eq rfl ?_)
      obtain ⟨hgood, -, hentries, -⟩ := Good.root hfree' hlist
      have hsafe := hgood.walkSafe_empty hentries
      have hmap :=
        @mmMappageat_safe _ ⟨obj, root, [], 1⟩ TRAMPOLINE _ (PTE_A ||| PTE_R ||| PTE_X) hsafe
          (htrampoline ▸ htramp'.unused_root hfree' hlist) (by decide)
      refine .bind hmap fun r vm₁ hstep => .ite (fun _ => hfail _ vm₁) fun _ => ?_
      obtain ⟨hsafe₁, hunused⟩ := hstep
      have hmap' :=
        @mmMappageat_safe _ ⟨obj, root, [], 1⟩ TRAPFRAME _ (PTE_A ||| PTE_D ||| PTE_R |||
          PTE_W) hsafe₁
          (hunused tf (htf'.unused_root hfree' hlist) (htrampoline ▸ hne)) (by decide)
      refine .bind hmap' fun r vm₂ hstep => .ite (fun _ => hfail _ vm₂) fun _ =>
        .pure fun mm hmm => ?_
      obtain rfl := Option.some.inj hmm
      exact hstep.1

/-- What code that has nothing to do with an address space does: it writes to none of its tables
and frees none of its pages. -/
structure LeavesAlone (pgt : Uint64) (vm vm' : Vm) : Prop where
  free : FreeOk vm'
  tables : ∀ x t, tableAt vm.pte pgt x = some t → vm'.pte t = vm.pte t ∧ t ∉ vm'.freelist
  leaves : ∀ v p, leafAt vm.pte pgt v = some p → p ∉ vm'.freelist

/-- **The address spaces that the kernel builds**, with the memory they are in. -/
inductive Built : Vm → Mm → Prop where
  | create {vm vm' : Vm} {tf : Uint64} {mm : Mm} (free : FreeOk vm)
    (trampoline : Reserved vm vm.trampoline)
      (trapframe : Reserved vm tf) (ne : tf ≠ vm.trampoline) (run : mmCreate tf vm = some
      (some mm, vm')) :
      Built vm' mm
  | mappages {vm vm' : Vm} {mm mm' : Mm} {vma : Vma} {r : Int} (built : Built vm mm)
    (isFlags : IsFlags vma.pteFlags)
      (run : mmMappages mm vma vm = some ((r, mm'), vm')) : Built vm' mm'
  | mappageat {vm vm' : Vm} {mm : Mm} {va pa flags : Uint64} {r : Int} (built : Built vm mm)
    (page : Unused vm mm.pgt pa)
      (isFlags : IsFlags flags) (run : mmMappageat mm va pa flags vm = some (r, vm')) :
      Built vm' mm
  | remap {vm vm' : Vm} {mm mm' : Mm} {vma : Vma} {start stop flags : Uint64} {r : Int}
    (built : Built vm mm)
      (old : IsFlags vma.pteFlags) (new : IsFlags flags)
      (run : mmRemap mm vma start stop flags vm = some ((r, mm'), vm')) : Built vm' mm'
  | walk {vm vm' : Vm} {mm : Mm} {va : Uint64} {alloc : Bool} {r : Option PteRef}
    (built : Built vm mm)
      (run : walk mm va alloc vm = some (r, vm')) : Built vm' mm
  /-- Other code runs; it may change the fields of `mm`, but not `pgt`. -/
  | other {vm vm' : Vm} {mm mm' : Mm} (built : Built vm mm) (pgt : mm'.pgt = mm.pgt)
    (alone : LeavesAlone mm.pgt vm vm') :
      Built vm' mm'

theorem WalkSafe.leavesAlone (h : WalkSafe vm pgt) (halone : LeavesAlone pgt vm vm') :
    WalkSafe vm' pgt := by
  have hpte (x : Table) (t : Uint64) (ht : tableAt vm.pte pgt x = some t) : vm'.pte t = vm.pte t :=
    (halone.tables x t ht).1
  have htables := tableAt_congr hpte
  have hleaf := leafAt_congr (entryAt_congr hpte)
  refine ⟨⟨?_, halone.free, fun x t ht => ?_⟩, fun x t hx ht k => ?_, ?_, ?_, fun v p hv => ?_⟩
  · rw [TablesApart, htables]
    exact h.tree.tables
  · rw [htables] at ht
    exact (halone.tables x t ht).2
  · rw [htables] at ht
    rw [hpte x t ht]
    exact h.inner x t hx ht k
  · rw [hleaf]
    exact h.frames
  · rw [htables, hleaf]
    exact h.apart
  · rw [hleaf] at hv
    exact ⟨(h.taken v p hv).1, halone.leaves v p hv⟩

/-- **All address spaces that the kernel builds are safe to walk.** -/
theorem Built.safe (h : Built vm mm) : WalkSafe vm mm.pgt := by
  induction h with
  | create hfree htramp htf hne hrun => exact (mmCreate_safe hfree htramp htf hne).elim hrun _ rfl
  | mappages _ hflags hrun ih =>
    obtain ⟨hpgt, hsafe⟩ := (mmMappages_safe ih hflags).elim hrun
    exact hpgt ▸ hsafe
  | mappageat _ hpage hflags hrun ih => exact ((mmMappageat_safe ih hpage hflags).elim hrun).1
  | remap _ hold hnew hrun ih =>
    obtain ⟨hpgt, hsafe⟩ := (mmRemap_safe ih hold hnew _ _).elim hrun
    exact hpgt ▸ hsafe
  | walk _ hrun ih => exact ((walk_slot ih _ _).elim hrun).1.safe
  | other _ hpgt halone ih => exact hpgt ▸ ih.leavesAlone halone

/-! ## Walks in them -/

/-- The pages of user addresses are told apart by their numbers. -/
theorem vpn_eq_iff {va va' : Uint64} (hva : IS_USER_VA va = true) (hva' : IS_USER_VA va' = true) :
    vpn va = vpn va' ↔ PGROUNDDOWN va = PGROUNDDOWN va' := by
  have huser {a : Uint64} (ha : IS_USER_VA a = true) : IS_USER_VA (PGROUNDDOWN a) = true := by
    have hle := PGROUNDDOWN_le a
    have hmax : a ≤ MAXVA := of_decide_eq_true ha
    rw [BitVec.le_def] at hle hmax
    exact decide_eq_true (BitVec.le_def.2 (hle.trans hmax))
  constructor
  · intro heq
    refine vpn_inj (huser hva) (huser hva') (pageStart_PGROUNDDOWN va)
      (pageStart_PGROUNDDOWN va') ?_
    rw [vpn_down, vpn_down, heq]
  · intro heq
    rw [← vpn_down va, ← vpn_down va', heq]

/-- What `walk(mm, va, 1)` should do, by its result and the memory after it. -/
structure WalkFinds (vm : Vm) (mm : Mm) (va : Uint64) (r : Option PteRef) (vm' : Vm) : Prop where
  /-- No translation is changed, also when the walk fails. -/
  translations : ∀ a, translate vm'.pte mm.pgt a = translate vm.pte mm.pgt a
  /-- The slot is the one that the translation reads, on level 0. -/
  slot : ∀ slot, r = some slot → sv39Slot vm'.pte va 2 mm.pgt = (0, slot)
  /-- A walk that allocates nothing finds it, too. -/
  agrees : ∀ slot, r = some slot → walk mm va false vm' = some (some slot, vm')
  /-- A slot that was there is found, and nothing happens. -/
  found : ∀ slot, walk mm va false vm = some (some slot, vm) → r = some slot ∧ vm' = vm
  /-- The next walk finds the same slot exactly if its address lies in the same page. -/
  injective : ∀ slot, r = some slot → ∀ va' slot' vm'',
    walk mm va' true vm' = some (some slot', vm'') →
    (slot = slot' ↔ PGROUNDDOWN va = PGROUNDDOWN va')
  /-- It fails for lack of memory only. -/
  failed : r = none → vm'.freelist = []

/-- A walk to a slot that is there. -/
theorem walk_existing (hva : IS_USER_VA va = true) {slot : PteRef}
    (h : slotOf vm.pte mm.pgt va = some slot) :
    walk mm va true vm = some (some slot, vm) := by
  obtain ⟨level1, hroot, hrest⟩ := Option.bind_eq_some_iff.1 h
  obtain ⟨level0, hmid, rfl⟩ := Option.map_eq_some_iff.1 hrest
  rw [walk, hva]
  exact bind_eq_some.2 ⟨_, _, walkLevel_some hroot,
    bind_eq_some.2 ⟨_, _, walkLevel_some hmid, rfl⟩⟩

theorem user_of_walk {slot : PteRef} (h : walk mm va true vm = some (some slot, vm')) :
    IS_USER_VA va = true := by
  cases hva : IS_USER_VA va with
  | true => rfl
  | false =>
    rw [walk, hva] at h
    cases h

/-- **`walk` finds the slot that the translation reads**, in every address space the kernel builds:
one slot for each page, without a change to any translation. -/
theorem walk_finds (h : Built vm mm) (hva : IS_USER_VA va = true) :
    Ends (walk mm va true) vm (WalkFinds vm mm va) := by
  have hsafe := h.safe
  obtain ⟨r, vm', hrun, ⟨hwide, hr⟩, hlist, hnone⟩ :=
    (walk_widens hsafe hva).and (walk_takes hsafe.tree hva)
  refine ⟨r, vm', hrun, ?_⟩
  have htable (slot : PteRef) (hslot : r = some slot) : ∃ t, slot = (t, (vpn va).l0.word) ∧
      tableAt vm'.pte mm.pgt (.last (vpn va).l2 (vpn va).l1) = some t := by
    rcases hr with rfl | ⟨t, rfl, ht⟩
    · exact absurd hslot (by simp)
    · exact ⟨t, (Option.some.inj hslot).symm, ht⟩
  constructor
  case translations =>
    intro a
    rw [hwide.safe.translate_eq, hsafe.translate_eq, hwide.entries]
  case slot =>
    intro slot hslot
    obtain ⟨t, rfl, ht⟩ := htable slot hslot
    exact hwide.safe.slot ht
  case agrees =>
    intro slot hslot
    obtain ⟨t, rfl, ht⟩ := htable slot hslot
    rw [walk_find hva, ht]
    rfl
  case found =>
    intro slot hfound
    rw [walk_noalloc hva, Option.some.injEq, Prod.mk.injEq] at hfound
    rw [walk_existing hva hfound.1] at hrun
    cases hrun
    exact ⟨rfl, rfl⟩
  case injective =>
    intro slot hslot va' slot' vm'' hrun'
    have hva' := user_of_walk hrun'
    obtain ⟨t, rfl, ht⟩ := htable slot hslot
    obtain ⟨hwide', hr'⟩ := (walk_widens hwide.safe hva').elim hrun'
    obtain ⟨t', hslot', ht'⟩ := hr'.resolve_left (by simp)
    obtain rfl := Option.some.inj hslot'
    have hstay := hwide'.tables _ _ ht
    rw [← vpn_eq_iff hva hva', Prod.mk.injEq, Index.word_inj]
    constructor
    · rintro ⟨rfl, hl0⟩
      have hplace := hwide'.safe.tree.tables _ _ _ hstay ht'
      rw [Table.last.injEq] at hplace
      exact Vpn.ext hplace.1 hplace.2 hl0
    · intro heq
      rw [heq, ht'] at hstay
      exact ⟨(Option.some.inj hstay).symm, congrArg Vpn.l0 heq⟩
  case failed =>
    intro hfail
    rw [hlist, List.drop_of_length_le (hnone.1 hfail).le]

/-- A walk in an address space that was just created. -/
theorem walk_finds_created : ∃ vm mm, Built vm mm ∧ mm.vma = [] ∧
    Ends (walk mm 0x1000 true) vm (WalkFinds vm mm 0x1000) := by
  have hrun : (mmCreate 0x90000000 initVm).map (fun r => r.1.map Mm.vma) = some (some []) := by
    decide +kernel
  obtain ⟨⟨mm, vm⟩, hrun, hvma⟩ := Option.map_eq_some_iff.1 hrun
  obtain ⟨mm, rfl, hempty⟩ := Option.map_eq_some_iff.1 hvma
  have hbuilt : Built vm mm :=
    .create freeOk_initVm ⟨by decide, by decide, by decide⟩ ⟨by decide, by decide, by decide⟩
      (by decide) hrun
  exact ⟨vm, mm, hbuilt, hempty, walk_finds hbuilt (by decide)⟩

end SignalOS
