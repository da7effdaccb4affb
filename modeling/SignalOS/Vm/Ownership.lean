import SignalOS.Lib.Total
import SignalOS.Vm.Tables

/-!
# Who owns a page

A page of the allocator is on its free list, or an address space owns it as a table or
as the frame of a user page.

* `frameAt`, `Owns` — the frame of a user page; the pages an address space owns.
* `Good` — **a tree whose pages are all different and none of them free**.
* `Evolves` — what an operation on an address space may touch: the pages it owns and
  the free ones; no page is lost or gained.
* `Grown` — a walk that may add tables; `walk_ends`.
* `Good.mapNew`, `Good.unmap`, `Good.setFlags` — **the three stores to leaf entries**.
-/

namespace SignalOS

open Partial

/-! ## Bits of entries -/

theorem PGALIGNED_iff {a : Uint64} : PGALIGNED a = true ↔ PageStart a := by
  have hlow : (a &&& (PGSIZE - 1)).toNat = a.toNat % 4096 := by
    rw [BitVec.toNat_and]
    exact Nat.and_two_pow_sub_one_eq_mod _ 12
  rw [PGALIGNED, beq_iff_eq, ← BitVec.toNat_inj, hlow, PageStart]
  rfl

/-- The low bits of an entry are flags. -/
def IsFlags (f : Uint64) : Prop := f.toNat < 2 ^ 10

theorem IsFlags.shift {f : Uint64} (h : IsFlags f) : f >>> 10 = 0 := by
  apply BitVec.eq_of_toNat_eq
  rw [BitVec.toNat_ushiftRight, Nat.shiftRight_eq_div_pow]
  exact Nat.div_eq_of_lt h

theorem IsFlags.getLsbD {f : Uint64} (h : IsFlags f) {i : Nat} (hi : 10 ≤ i) :
    f.getLsbD i = false :=
  Nat.testBit_lt_two_pow (lt_of_lt_of_le h (Nat.pow_le_pow_right (by decide) hi))

theorem PTE2PA_or {x f : Uint64} (hf : IsFlags f) : PTE2PA (x ||| f) = PTE2PA x := by
  rw [PTE2PA, BitVec.ushiftRight_or_distrib, hf.shift]
  simp [PTE2PA]

theorem PTE2PA_PA2PTE {p : Uint64} (hp : PageStart p) : PTE2PA (PA2PTE p) = p := by
  have hlt := p.isLt
  rw [PageStart] at hp
  apply BitVec.eq_of_toNat_eq
  simp only [PTE2PA, PA2PTE, BitVec.toNat_shiftLeft, BitVec.toNat_ushiftRight,
    Nat.shiftRight_eq_div_pow, Nat.shiftLeft_eq]
  omega

/-- The flags of an entry, whatever the page. -/
theorem PA2PTE_and {p m : Uint64} (hm : IsFlags m) : PA2PTE p &&& m = 0 := by
  refine BitVec.eq_of_getLsbD_eq fun i _ => ?_
  rw [BitVec.getLsbD_and, PA2PTE, BitVec.getLsbD_shiftLeft]
  by_cases hi : 10 ≤ i
  · simp [hm.getLsbD hi]
  · simp [Nat.lt_of_not_le hi]

instance (f : Uint64) : Decidable (IsFlags f) := inferInstanceAs (Decidable (_ < _))

theorem isFlags_V : IsFlags PTE_V := by decide
theorem isFlags_U : IsFlags PTE_U := by decide
theorem isFlags_RWX : IsFlags PTE_RWX := by decide

theorem IsFlags.or {f g : Uint64} (hf : IsFlags f) (hg : IsFlags g) : IsFlags (f ||| g) := by
  rw [IsFlags, BitVec.toNat_or]
  exact Nat.or_lt_two_pow hf hg

/-- The bits of an entry that `mm_mappages` stores. -/
theorem entry_and {p f m : Uint64} (hm : IsFlags m) (hV : PTE_V &&& m = 0) :
    (PA2PTE p ||| f ||| PTE_V) &&& m = f &&& m := by
  rw [BitVec.and_or_distrib_right, BitVec.and_or_distrib_right, PA2PTE_and hm, hV]
  simp

theorem or_V_ne_zero (x : Uint64) : (x ||| PTE_V) &&& PTE_V ≠ 0 := by
  intro hzero
  have hbit : ((x ||| PTE_V) &&& PTE_V).getLsbD 0 = true := by
    rw [BitVec.getLsbD_and, BitVec.getLsbD_or]
    simp [PTE_V]
  rw [hzero] at hbit
  exact absurd hbit (by simp)

theorem PTE2PA_entry {p f : Uint64} (hp : PageStart p) (hf : IsFlags f) :
    PTE2PA (PA2PTE p ||| f ||| PTE_V) = p := by
  rw [PTE2PA_or isFlags_V, PTE2PA_or hf, PTE2PA_PA2PTE hp]

theorem nextTable_entry {p : Uint64} (hp : PageStart p) :
    nextTable (PA2PTE p ||| PTE_V) = some p := by
  rw [nextTable, if_pos (or_V_ne_zero _), PTE2PA_or isFlags_V, PTE2PA_PA2PTE hp]

/-! ## Frames -/

/-- The frame of a user page, from its entry. -/
def frameOf (e : Uint64) : Option Uint64 :=
  if e &&& PTE_V ≠ 0 ∧ e &&& PTE_U ≠ 0 then some (PTE2PA e) else none

/-- The frame of a user page. -/
def frameAt (pte : Uint64 → Uint64 → Uint64) (pgt : Uint64) (v : Vpn) : Option Uint64 :=
  frameOf (entryAt pte pgt v)

@[simp] theorem frameOf_zero : frameOf 0 = none := rfl

/-- The flags of a user page, as a vma has them. -/
structure UserFlags (f : Uint64) : Prop where
  isFlags : IsFlags f
  user : f &&& PTE_U ≠ 0
  rwx : f &&& PTE_RWX ≠ 0

theorem frameOf_entry {p f : Uint64} (hp : PageStart p) (hf : UserFlags f) :
    frameOf (PA2PTE p ||| f ||| PTE_V) = some p := by
  have hu : (PA2PTE p ||| f ||| PTE_V) &&& PTE_U ≠ 0 := by
    rw [entry_and isFlags_U (by decide)]
    exact hf.user
  rw [frameOf, if_pos ⟨or_V_ne_zero _, hu⟩, PTE2PA_entry hp hf.isFlags]

theorem frameOf_getD (e : Uint64) : (frameOf e).getD 0 =
    if e &&& PTE_V = 0 then 0 else if e &&& PTE_U = 0 then 0 else PTE2PA e := by
  rw [frameOf]
  by_cases hv : e &&& PTE_V = 0
  · rw [if_pos hv, if_neg fun h => h.1 hv]
    rfl
  by_cases hu : e &&& PTE_U = 0
  · rw [if_neg hv, if_pos hu, if_neg fun h => h.2 hu]
    rfl
  · rw [if_neg hv, if_neg hu, if_pos ⟨hv, hu⟩]
    rfl

/-- `walkaddr` in terms of the entry. -/
theorem walkaddr_frameAt {vm : Vm} {mm : Mm} {va : Uint64} (h : IS_USER_VA va = true) :
    walkaddr vm mm va = (frameAt vm.pte mm.pgt (vpn va)).getD 0 := by
  rw [walkaddr_eq h, slotOf_eq, frameAt, frameOf_getD, entryAt]
  cases tableAt vm.pte mm.pgt (.last (vpn va).l2 (vpn va).l1) with
  | none =>
    have hzero : (0 : Uint64) &&& PTE_V = 0 := by decide
    rw [Option.elim_none, if_pos hzero]
    rfl
  | some t => rfl

/-! ## The allocator -/

/-- A page that `kfreepage` accepts, and that is not `NULL`. -/
structure Vm.Manages (vm : Vm) (p : Uint64) : Prop where
  start : PageStart p
  ne_zero : p ≠ 0
  lower : vm.kpageAllocatorBase ≤ p + KERNEL_DIRECT_MAPPING_BASE
  upper : p + KERNEL_DIRECT_MAPPING_BASE < vm.kpageAllocatorBase + vm.kpageAllocatorSize

instance (a : Uint64) : Decidable (PageStart a) := inferInstanceAs (Decidable (_ = _))

instance (vm : Vm) (p : Uint64) : Decidable (vm.Manages p) :=
  decidable_of_iff (PageStart p ∧ p ≠ 0 ∧ vm.kpageAllocatorBase ≤ p + KERNEL_DIRECT_MAPPING_BASE ∧
      p + KERNEL_DIRECT_MAPPING_BASE < vm.kpageAllocatorBase + vm.kpageAllocatorSize)
    ⟨fun h => ⟨h.1, h.2.1, h.2.2.1, h.2.2.2⟩, fun h => ⟨h.start, h.ne_zero, h.lower, h.upper⟩⟩

/-- The free list has different pages of the allocator. -/
structure FreeOk (vm : Vm) : Prop where
  nodup : vm.freelist.Nodup
  managed : ∀ p ∈ vm.freelist, vm.Manages p

/-- What no operation on an address space changes. -/
structure Static (vm vm' : Vm) : Prop where
  base : vm'.kpageAllocatorBase = vm.kpageAllocatorBase
  size : vm'.kpageAllocatorSize = vm.kpageAllocatorSize
  trampoline : vm'.trampoline = vm.trampoline
  kstrbuf : vm'.kstrbuf = vm.kstrbuf

theorem Static.refl (vm : Vm) : Static vm vm := ⟨rfl, rfl, rfl, rfl⟩

theorem Static.trans {vm₁ vm₂ vm₃ : Vm} (h : Static vm₁ vm₂) (h' : Static vm₂ vm₃) :
    Static vm₁ vm₃ :=
  ⟨h'.base.trans h.base, h'.size.trans h.size, h'.trampoline.trans h.trampoline,
    h'.kstrbuf.trans h.kstrbuf⟩

theorem Static.manages {vm vm' : Vm} (h : Static vm vm') {p : Uint64} (hp : vm.Manages p) :
    vm'.Manages p :=
  ⟨hp.start, hp.ne_zero, h.base ▸ hp.lower, h.base ▸ h.size ▸ hp.upper⟩

/-- The object pools are as they were. -/
structure SamePools (vm vm' : Vm) : Prop where
  mm : vm'.mmAllocator = vm.mmAllocator
  vma : vm'.vmaAllocator = vm.vmaAllocator

theorem SamePools.refl (vm : Vm) : SamePools vm vm := ⟨rfl, rfl⟩

theorem SamePools.trans {vm₁ vm₂ vm₃ : Vm} (h : SamePools vm₁ vm₂) (h' : SamePools vm₂ vm₃) :
    SamePools vm₁ vm₃ := ⟨h'.mm.trans h.mm, h'.vma.trans h.vma⟩

/-- Memory after a page was taken from the free list. -/
def Vm.take (vm : Vm) (p : Uint64) (rest : List Uint64) : Vm :=
  { vm with freelist := rest, byte := memset vm.byte p 0xaf PGSIZE }

/-- Memory after a page was given back. -/
def Vm.give (vm : Vm) (p : Uint64) : Vm :=
  { vm with byte := memset vm.byte p 0xdd PGSIZE, freelist := p :: vm.freelist }

theorem kallocpage_nil {vm : Vm} (h : vm.freelist = []) : kallocpage vm = some (0, vm) := by
  simp only [kallocpage, h]

theorem kallocpage_cons {vm : Vm} {p : Uint64} {rest : List Uint64} (h : vm.freelist = p :: rest) :
    kallocpage vm = some (p, vm.take p rest) := by
  simp only [kallocpage, h]
  rfl

theorem kfreepage_eq {vm : Vm} {p : Uint64} (h : vm.Manages p) :
    kfreepage p vm = some ((), vm.give p) := by
  rw [kfreepage, if_neg]
  · rfl
  · simp only [PGALIGNED_iff.2 h.start, h.lower, h.upper, decide_true, Bool.and_self,
      Bool.not_true,
      Bool.or_self, Bool.false_eq_true, not_false_eq_true]

/-- `memset` of a page changes bytes of that page. -/
theorem memset_page {m : Uint64 → Byte} {p a : Uint64} (hp : PageStart p) (h : PGROUNDDOWN a ≠ p)
    (c : Byte) :
    memset m p c PGSIZE a = m a := by
  refine if_neg fun hlt => h ?_
  have hsize : PGSIZE.toNat = 4096 := rfl
  rw [BitVec.lt_def, hsize] at hlt
  have hsum : p + BitVec.ofNat 64 (a - p).toNat = a := add_toNat_sub
  rw [← hsum, PGROUNDDOWN_add hp hlt]

/-- The memory to run on has a sound free list. -/
theorem freeOk_initVm : FreeOk initVm := by
  refine ⟨by decide, fun p hp => ?_⟩
  obtain ⟨n, hn, rfl⟩ := List.mem_map.1 hp
  rw [List.mem_range] at hn
  have hp : (BitVec.ofNat 64 (0x100000 + 0x1000 * n)).toNat = 0x100000 + 0x1000 * n := by
    rw [BitVec.toNat_ofNat]
    omega
  have hbase : KERNEL_DIRECT_MAPPING_BASE.toNat = 0xffffffc000000000 := rfl
  have hend : (initVm.kpageAllocatorBase + initVm.kpageAllocatorSize).toNat = 0xffffffc010000000 :=
    rfl
  have hsum : (BitVec.ofNat 64 (0x100000 + 0x1000 * n) + KERNEL_DIRECT_MAPPING_BASE).toNat =
      0x100000 + 0x1000 * n + 0xffffffc000000000 := by
    rw [BitVec.toNat_add, hp, hbase]
    omega
  refine ⟨?_, ?_, ?_, ?_⟩
  · rw [PageStart, hp]
    omega
  · rw [ne_eq, ← BitVec.toNat_inj, hp]
    simp
  · rw [BitVec.le_def, hsum]
    show KERNEL_DIRECT_MAPPING_BASE.toNat ≤ _
    omega
  · rw [BitVec.lt_def, hsum, hend]
    omega

/-- The same memory with fewer free pages: an address space with one page takes six of them, and an
empty one three. -/
def fewPages (n : Nat) : Vm := { initVm with freelist := initVm.freelist.take n }

theorem freeOk_fewPages (n : Nat) : FreeOk (fewPages n) := by
  have hstatic : Static initVm (fewPages n) := ⟨rfl, rfl, rfl, rfl⟩
  exact ⟨freeOk_initVm.nodup.sublist (List.take_sublist _ _),
    fun p hp => hstatic.manages (freeOk_initVm.managed p (List.mem_of_mem_take hp))⟩

/-! ## Owning pages -/

/-- The address space rooted at `pgt` owns the page: as a table, or as the frame of a user page. -/
def Owns (vm : Vm) (pgt p : Uint64) : Prop :=
  (∃ x, tableAt vm.pte pgt x = some p) ∨ ∃ v, frameAt vm.pte pgt v = some p

/-- The tables of the two upper levels. -/
def Table.Inner : Table → Prop
  | .root => True
  | .mid _ => True
  | .last .. => False

/-- The valid entries of the upper levels are plain pointers to the tables below. -/
def Pointers (pte : Uint64 → Uint64 → Uint64) (pgt : Uint64) : Prop :=
  ∀ x t, x.Inner → tableAt pte pgt x = some t → ∀ (k : Index) (c : Uint64),
    nextTable (pte t k.word) = some c → pte t k.word = PA2PTE c ||| PTE_V

/-- A valid entry that is not one of a table. -/
def Leaf (e : Uint64) : Prop := e &&& PTE_V ≠ 0 ∧ e &&& PTE_RWX ≠ 0

/-- **A tree in good order**: all its pages are different, none is free, and what tells tables from
leaves is right. -/
structure Good (vm : Vm) (pgt : Uint64) : Prop where
  tables : TablesApart vm.pte pgt
  frames : ∀ v w p, frameAt vm.pte pgt v = some p → frameAt vm.pte pgt w = some p → v = w
  apart : ∀ x v p, tableAt vm.pte pgt x = some p → frameAt vm.pte pgt v ≠ some p
  inner : ∀ x t, x.Inner → tableAt vm.pte pgt x = some t → ∀ k : Index,
    vm.pte t k.word &&& PTE_V ≠ 0 → vm.pte t k.word &&& PTE_RWX = 0
  leaf : ∀ v, entryAt vm.pte pgt v = 0 ∨ Leaf (entryAt vm.pte pgt v)
  free : FreeOk vm
  owned : ∀ p, Owns vm pgt p → p ∉ vm.freelist ∧ vm.Manages p

/-- The order of a tree depends on the tables and the free list alone. -/
theorem Good.of_same {vm vm' : Vm} {pgt : Uint64} (h : Good vm pgt) (hpte : vm'.pte = vm.pte)
    (hfree : vm'.freelist = vm.freelist) (hmanages : ∀ p, vm.Manages p → vm'.Manages p) :
    Good vm' pgt := by
  have hfreeOk : FreeOk vm' :=
    ⟨hfree ▸ h.free.nodup, fun p hp => hmanages p (h.free.managed p (hfree ▸ hp))⟩
  refine ⟨hpte ▸ h.tables, ?_, ?_, ?_, ?_, hfreeOk, fun p hp => ?_⟩
  · rw [hpte]
    exact h.frames
  · rw [hpte]
    exact h.apart
  · rw [hpte]
    exact h.inner
  · rw [hpte]
    exact h.leaf
  · have hown : Owns vm pgt p := by
      rw [Owns, hpte] at hp
      exact hp
    obtain ⟨hout, hmanaged⟩ := h.owned p hown
    exact ⟨hfree ▸ hout, hmanages p hmanaged⟩

/-- What an operation may touch that starts with the pages `own` and ends with the pages `own'`. -/
structure Evolves (own own' : Uint64 → Prop) (vm vm' : Vm) : Prop where
  pte : ∀ t, ¬ own t → t ∉ vm.freelist → vm'.pte t = vm.pte t
  byte : ∀ a, ¬ own (PGROUNDDOWN a) → PGROUNDDOWN a ∉ vm.freelist → vm'.byte a = vm.byte a
  /-- No page is lost or gained. -/
  pages : ∀ p, p ∈ vm'.freelist ∨ own' p ↔ p ∈ vm.freelist ∨ own p
  static : Static vm vm'

theorem Evolves.refl (own : Uint64 → Prop) (vm : Vm) : Evolves own own vm vm :=
  ⟨fun _ _ _ => rfl, fun _ _ _ => rfl, fun _ => Iff.rfl, Static.refl vm⟩

theorem Evolves.trans {own₁ own₂ own₃ : Uint64 → Prop} {vm₁ vm₂ vm₃ : Vm}
    (h : Evolves own₁ own₂ vm₁ vm₂)
    (h' : Evolves own₂ own₃ vm₂ vm₃) : Evolves own₁ own₃ vm₁ vm₃ := by
  have hout {p : Uint64} (hown : ¬ own₁ p) (hfree : p ∉ vm₁.freelist) : ¬ own₂ p ∧
      p ∉ vm₂.freelist := by
    have hnot := (not_congr (h.pages p)).2 (not_or.2 ⟨hfree, hown⟩)
    exact ⟨fun h => hnot (.inr h), fun h => hnot (.inl h)⟩
  refine ⟨fun t hown hfree => ?_, fun a hown hfree => ?_, fun p => (h'.pages p).trans (h.pages p),
    h.static.trans h'.static⟩
  · obtain ⟨hown', hfree'⟩ := hout hown hfree
    rw [h'.pte t hown' hfree', h.pte t hown hfree]
  · obtain ⟨hown', hfree'⟩ := hout hown hfree
    rw [h'.byte a hown' hfree', h.byte a hown hfree]

/-- The pages an operation starts with may be described in another way. -/
theorem Evolves.congr {own₁ own₂ own₁' own₂' : Uint64 → Prop} {vm vm' : Vm}
    (h : Evolves own₁ own₂ vm vm')
    (h₁ : ∀ p, own₁' p ↔ own₁ p) (h₂ : ∀ p, own₂' p ↔ own₂ p) : Evolves own₁' own₂' vm vm' := by
  obtain rfl : own₁' = own₁ := funext fun p => propext (h₁ p)
  obtain rfl : own₂' = own₂ := funext fun p => propext (h₂ p)
  exact h

/-- **What an operation makes of an address space**: its leaf entries are now `entries`; there may
be more tables, but the ones there were are where they were. -/
structure Changes (pgt : Uint64) (entries : Vpn → Uint64) (vm vm' : Vm) : Prop where
  good : Good vm' pgt
  evolves : Evolves (Owns vm pgt) (Owns vm' pgt) vm vm'
  entries : entryAt vm'.pte pgt = entries
  tables : ∀ x t, tableAt vm.pte pgt x = some t → tableAt vm'.pte pgt x = some t
  pointers : Pointers vm.pte pgt → Pointers vm'.pte pgt

theorem Changes.trans {pgt : Uint64} {entries entries' : Vpn → Uint64} {vm₁ vm₂ vm₃ : Vm}
    (h : Changes pgt entries vm₁ vm₂) (h' : Changes pgt entries' vm₂ vm₃) :
    Changes pgt entries' vm₁ vm₃ :=
  ⟨h'.good, h.evolves.trans h'.evolves, h'.entries, fun x t ht => h'.tables x t (h.tables x t ht),
    fun hp => h'.pointers (h.pointers hp)⟩

/-- The same, by an operation that takes no object from the pools. -/
structure Becomes (pgt : Uint64) (entries : Vpn → Uint64) (vm vm' : Vm) : Prop
    extends Changes pgt entries vm vm' where
  pools : SamePools vm vm'

theorem Becomes.trans {pgt : Uint64} {entries entries' : Vpn → Uint64} {vm₁ vm₂ vm₃ : Vm}
    (h : Becomes pgt entries vm₁ vm₂) (h' : Becomes pgt entries' vm₂ vm₃) :
    Becomes pgt entries' vm₁ vm₃ :=
  ⟨h.toChanges.trans h'.toChanges, h.pools.trans h'.pools⟩

/-! ## Stores to leaf entries -/

section Leaf

variable {vm vm' : Vm} {pgt t p e : Uint64} {v : Vpn}

/-- The pages that are owned after a leaf entry was replaced. -/
theorem owns_update {pte' : Uint64 → Uint64 → Uint64}
    (htables : tableAt pte' pgt = tableAt vm.pte pgt)
    (hentries : entryAt pte' pgt = Function.update (entryAt vm.pte pgt) v e)
    (hpte : vm'.pte = pte') :
    Owns vm' pgt p ↔ (∃ x, tableAt vm.pte pgt x = some p) ∨
      (∃ w, w ≠ v ∧ frameAt vm.pte pgt w = some p) ∨ frameOf e = some p := by
  rw [Owns, hpte, htables]
  refine or_congr Iff.rfl ⟨?_, ?_⟩
  · rintro ⟨w, hw⟩
    rw [frameAt, hentries] at hw
    by_cases hwv : w = v
    · subst hwv
      rw [Function.update_self] at hw
      exact .inr hw
    · rw [Function.update_of_ne hwv] at hw
      exact .inl ⟨w, hwv, hw⟩
  · rintro (⟨w, hwv, hw⟩ | he)
    · exact ⟨w, by rw [frameAt, hentries, Function.update_of_ne hwv]; exact hw⟩
    · exact ⟨v, by rw [frameAt, hentries, Function.update_self]; exact he⟩

/-- What a store to a leaf entry needs to keep a tree in good order. -/
theorem Good.setLeaf (h : Good vm pgt) (ht : tableAt vm.pte pgt (.last v.l2 v.l1) = some t)
    (hpte : vm'.pte = (vm.setPte t v.l0.word e).pte) (hfree : FreeOk vm')
    (hleaf : e = 0 ∨ Leaf e)
    (hnew : ∀ p, frameOf e = some p → (∀ x, tableAt vm.pte pgt x ≠ some p) ∧
      ∀ w, w ≠ v → frameAt vm.pte pgt w ≠ some p)
    (howned : ∀ p, Owns vm' pgt p → p ∉ vm'.freelist ∧ vm'.Manages p) : Good vm' pgt := by
  have htables : tableAt vm'.pte pgt = tableAt vm.pte pgt := by
    rw [hpte]
    exact tableAt_setPte h.tables ht _ _
  have hentries : entryAt vm'.pte pgt = Function.update (entryAt vm.pte pgt) v e := by
    rw [hpte]
    exact entryAt_setPte h.tables ht _ _
  have hframe (w : Vpn) : frameAt vm'.pte pgt w = if w = v then frameOf e
      else frameAt vm.pte pgt w := by
    rw [frameAt, hentries, Function.update_apply]
    split
    · rfl
    · rfl
  constructor
  case tables =>
    rw [TablesApart, htables]
    exact h.tables
  case frames =>
    intro w w' q hw hw'
    rw [hframe] at hw hw'
    split at hw
    · split at hw'
      · rename_i h₁ h₂
        exact h₁.trans h₂.symm
      · rename_i hne
        exact absurd hw' ((hnew q hw).2 w' hne)
    · split at hw'
      · rename_i hne _
        exact absurd hw ((hnew q hw').2 w hne)
      · exact h.frames w w' q hw hw'
  case apart =>
    intro x w q hx hw
    rw [htables] at hx
    rw [hframe] at hw
    split at hw
    · exact (hnew q hw).1 x hx
    · exact h.apart x w q hx hw
  case inner =>
    intro x u hx hu k
    rw [htables] at hu
    have hne : u ≠ t := h.tables.ne hu ht (by rintro rfl; exact hx)
    rw [hpte, setPte_of_ne hne]
    exact h.inner x u hx hu k
  case leaf =>
    intro w
    rw [hentries, Function.update_apply]
    split
    · exact hleaf
    · exact h.leaf w
  case free => exact hfree
  case owned => exact howned

/-- A store to a leaf entry leaves the upper levels alone. -/
theorem Good.pointers_setPte (h : Good vm pgt) (ht : tableAt vm.pte pgt (.last v.l2 v.l1) = some t)
    (a : Uint64)
    (hpointers : Pointers vm.pte pgt) : Pointers (vm.setPte t a e).pte pgt := by
  intro x u hx hu k
  rw [tableAt_setPte h.tables ht] at hu
  have hne : u ≠ t := h.tables.ne hu ht (by rintro rfl; exact hx)
  rw [setPte_of_ne hne]
  exact hpointers x u hx hu k

/-- Memory once a new frame is mapped at a page. -/
def Vm.mapNew (vm : Vm) (p : Uint64) (rest : List Uint64) (t a e : Uint64) : Vm :=
  (vm.take p rest).setPte t a e

theorem Good.fresh {rest : List Uint64} (h : Good vm pgt) (hfree : vm.freelist = p :: rest) :
    (∀ x, tableAt vm.pte pgt x ≠ some p) ∧ (∀ w, frameAt vm.pte pgt w ≠ some p) ∧ vm.Manages p ∧
      p ∉ rest := by
  have hmem : p ∈ vm.freelist := by rw [hfree]; exact List.mem_cons_self
  have hnodup := h.free.nodup
  rw [hfree] at hnodup
  exact ⟨fun x hx => (h.owned p (.inl ⟨x, hx⟩)).1 hmem,
    fun w hw => (h.owned p (.inr ⟨w, hw⟩)).1 hmem,
    h.free.managed p hmem, (List.nodup_cons.1 hnodup).1⟩

/-- The rest of the free list, in memory that has it as its free list. -/
theorem FreeOk.take {rest : List Uint64} (h : FreeOk vm) (hfree : vm.freelist = p :: rest)
    (hstatic : Static vm vm') (hrest : vm'.freelist = rest) : FreeOk vm' := by
  have hnodup := h.nodup
  rw [hfree] at hnodup
  refine ⟨hrest ▸ (List.nodup_cons.1 hnodup).2, fun q hq => hstatic.manages (h.managed q ?_)⟩
  rw [hfree]
  exact List.mem_cons_of_mem _ (hrest ▸ hq)

/-- **A new frame at a page that is not mapped.** -/
theorem Good.mapNew {rest : List Uint64} {flags : Uint64} (h : Good vm pgt)
    (ht : tableAt vm.pte pgt (.last v.l2 v.l1) = some t) (hfree : vm.freelist = p :: rest)
    (hnone : frameAt vm.pte pgt v = none) (hflags : UserFlags flags) :
    Becomes pgt (Function.update (entryAt vm.pte pgt) v (PA2PTE p ||| flags ||| PTE_V)) vm
      (vm.mapNew p rest t v.l0.word (PA2PTE p ||| flags ||| PTE_V)) := by
  set vm' := vm.mapNew p rest t v.l0.word (PA2PTE p ||| flags ||| PTE_V)
  obtain ⟨hnotTable, hnotFrame, hmanaged, hrest⟩ := h.fresh hfree
  have hstatic : Static vm vm' := ⟨rfl, rfl, rfl, rfl⟩
  have htables : tableAt vm'.pte pgt = tableAt vm.pte pgt := tableAt_setPte h.tables ht _ _
  have hentries := entryAt_setPte h.tables ht v.l0 (PA2PTE p ||| flags ||| PTE_V)
  have hframe := frameOf_entry hmanaged.start hflags
  have howns (q : Uint64) : Owns vm' pgt q ↔ Owns vm pgt q ∨ q = p := by
    rw [@owns_update vm _ _ _ _ _ _ htables hentries rfl, hframe, Owns, or_assoc,
      Option.some.injEq]
    refine or_congr Iff.rfl (or_congr ⟨fun ⟨w, _, hw⟩ => ⟨w, hw⟩, fun ⟨w, hw⟩ => ⟨w, ?_, hw⟩⟩
      eq_comm)
    rintro rfl
    rw [hnone] at hw
    exact absurd hw (by simp)
  refine ⟨⟨?_, ?_, hentries, fun x u hu => htables ▸ hu, h.pointers_setPte ht _⟩, ⟨rfl, rfl⟩⟩
  · refine h.setLeaf ht rfl (h.free.take hfree hstatic rfl) ?_ ?_ fun q hq => ?_
    · refine .inr ⟨or_V_ne_zero _, ?_⟩
      rw [entry_and isFlags_RWX (by decide)]
      exact hflags.rwx
    · intro q hq
      obtain rfl := Option.some.inj (hframe.symm.trans hq)
      exact ⟨hnotTable, fun w _ => hnotFrame w⟩
    · rcases (howns q).1 hq with hq | rfl
      · obtain ⟨hout, hman⟩ := h.owned q hq
        exact ⟨fun hin => hout (by rw [hfree]; exact List.mem_cons_of_mem _ hin),
          hstatic.manages hman⟩
      · exact ⟨hrest, hstatic.manages hmanaged⟩
  · constructor
    case pte =>
      intro q hown _
      exact setPte_of_ne (fun hqt => hown (.inl ⟨_, hqt ▸ ht⟩)) _
    case byte =>
      intro a _ hout
      exact memset_page hmanaged.start
        (fun hap => hout (by rw [hfree, hap]; exact List.mem_cons_self)) _
    case pages =>
      intro q
      rw [howns, hfree, List.mem_cons]
      show q ∈ rest ∨ _ ↔ _
      tauto
    case static => exact hstatic

/-- Memory once a frame is given back and its entry cleared. -/
def Vm.unmap (vm : Vm) (p t a : Uint64) : Vm := (vm.give p).setPte t a 0

/-- **A frame is given back.** -/
theorem Good.unmap (h : Good vm pgt) (ht : tableAt vm.pte pgt (.last v.l2 v.l1) = some t)
    (hframe : frameAt vm.pte pgt v = some p) :
    Becomes pgt (Function.update (entryAt vm.pte pgt) v 0) vm (vm.unmap p t v.l0.word) := by
  set vm' := vm.unmap p t v.l0.word
  have hpown : Owns vm pgt p := .inr ⟨v, hframe⟩
  obtain ⟨hpfree, hpman⟩ := h.owned p hpown
  have hstatic : Static vm vm' := ⟨rfl, rfl, rfl, rfl⟩
  have htables : tableAt vm'.pte pgt = tableAt vm.pte pgt := tableAt_setPte h.tables ht _ _
  have hentries := entryAt_setPte h.tables ht v.l0 0
  have howns (q : Uint64) : Owns vm' pgt q ↔ Owns vm pgt q ∧ q ≠ p := by
    rw [@owns_update vm _ _ _ _ _ _ htables hentries rfl, frameOf_zero, Owns]
    constructor
    · rintro (⟨x, hx⟩ | ⟨w, hwv, hw⟩ | hnone)
      · refine ⟨.inl ⟨x, hx⟩, fun hqp => h.apart x v p (hqp ▸ hx) hframe⟩
      · refine ⟨.inr ⟨w, hw⟩, fun hqp => hwv (h.frames w v p (hqp ▸ hw) hframe)⟩
      · exact absurd hnone (by simp)
    · rintro ⟨⟨x, hx⟩ | ⟨w, hw⟩, hqp⟩
      · exact .inl ⟨x, hx⟩
      · refine .inr (.inl ⟨w, ?_, hw⟩)
        rintro rfl
        exact hqp (Option.some.inj (hw.symm.trans hframe))
  refine ⟨⟨?_, ?_, hentries, fun x u hu => htables ▸ hu, h.pointers_setPte ht _⟩, ⟨rfl, rfl⟩⟩
  · refine h.setLeaf ht rfl ⟨?_, fun q hq => ?_⟩ ?_ ?_ fun q hq => ?_
    · exact List.nodup_cons.2 ⟨hpfree, h.free.nodup⟩
    · rcases List.mem_cons.1 hq with rfl | hq
      · exact hstatic.manages hpman
      · exact hstatic.manages (h.free.managed q hq)
    · exact .inl rfl
    · exact fun q hq => absurd (hq.symm.trans frameOf_zero) (by simp)
    · obtain ⟨hown, hne⟩ := (howns q).1 hq
      obtain ⟨hout, hman⟩ := h.owned q hown
      exact ⟨fun hin => (List.mem_cons.1 hin).elim hne hout, hstatic.manages hman⟩
  · constructor
    case pte =>
      intro q hown _
      exact setPte_of_ne (fun hqt => hown (.inl ⟨_, hqt ▸ ht⟩)) _
    case byte =>
      intro a hown _
      exact memset_page hpman.start (fun hap => hown (hap ▸ hpown)) _
    case pages =>
      intro q
      rw [howns]
      show q ∈ p :: vm.freelist ∨ _ ↔ _
      rw [List.mem_cons]
      by_cases hqp : q = p
      · subst hqp
        simp [hpown]
      · simp [hqp]
    case static => exact hstatic

/-- **A change of flags.** -/
theorem Good.setFlags (h : Good vm pgt) (ht : tableAt vm.pte pgt (.last v.l2 v.l1) = some t)
    (hframe : frameOf e = frameAt vm.pte pgt v) (hleaf : Leaf e) :
    Becomes pgt (Function.update (entryAt vm.pte pgt) v e) vm (vm.setPte t v.l0.word e) := by
  set vm' := vm.setPte t v.l0.word e
  have hstatic : Static vm vm' := ⟨rfl, rfl, rfl, rfl⟩
  have htables : tableAt vm'.pte pgt = tableAt vm.pte pgt := tableAt_setPte h.tables ht _ _
  have hentries := entryAt_setPte h.tables ht v.l0 e
  have howns (q : Uint64) : Owns vm' pgt q ↔ Owns vm pgt q := by
    rw [@owns_update vm _ _ _ _ _ _ htables hentries rfl, hframe, Owns]
    refine or_congr Iff.rfl ⟨?_, fun ⟨w, hw⟩ => ?_⟩
    · rintro (⟨w, -, hw⟩ | hv)
      · exact ⟨w, hw⟩
      · exact ⟨v, hv⟩
    · by_cases hwv : w = v
      · exact .inr (hwv ▸ hw)
      · exact .inl ⟨w, hwv, hw⟩
  refine ⟨⟨?_, ?_, hentries, fun x u hu => htables ▸ hu, h.pointers_setPte ht _⟩, ⟨rfl, rfl⟩⟩
  · have hfree : FreeOk vm' := ⟨h.free.nodup, fun q hq => hstatic.manages (h.free.managed q hq)⟩
    have howned (q : Uint64) (hq : Owns vm' pgt q) : q ∉ vm'.freelist ∧ vm'.Manages q :=
      ⟨(h.owned q ((howns q).1 hq)).1, hstatic.manages (h.owned q ((howns q).1 hq)).2⟩
    refine h.setLeaf ht rfl hfree (.inr hleaf) ?_ howned
    intro q hq
    rw [hframe] at hq
    exact ⟨fun x hx => h.apart x v q hx hq, fun w hwv hw => hwv (h.frames w v q hw hq)⟩
  · constructor
    case pte =>
      intro q hown _
      exact setPte_of_ne (fun hqt => hown (.inl ⟨_, hqt ▸ ht⟩)) _
    case byte => exact fun _ _ _ => rfl
    case pages => exact fun q => or_congr Iff.rfl (howns q)
    case static => exact hstatic

end Leaf

/-! ## Walks -/

/-- What a walk may do to an address space: add tables. -/
abbrev Grown (pgt : Uint64) (vm vm' : Vm) : Prop := Becomes pgt (entryAt vm.pte pgt) vm vm'

section Walk

variable {vm vm' vm'' : Vm} {pgt t p : Uint64} {x y : Table}

theorem Grown.refl (h : Good vm pgt) : Grown pgt vm vm :=
  ⟨⟨h, Evolves.refl _ vm, rfl, fun _ _ ht => ht, id⟩, SamePools.refl vm⟩

theorem Grown.trans (h : Grown pgt vm vm') (h' : Grown pgt vm' vm'') : Grown pgt vm vm'' :=
  Becomes.trans h (h.entries ▸ h')

/-- **A new table**: the first free page, linked from an entry of a table of an upper level. -/
theorem Good.addTable {rest : List Uint64} {k : Index} (h : Good vm pgt)
    (hfree : vm.freelist = p :: rest)
    (ht : tableAt vm.pte pgt x = some t)
    (hext : Extended vm.pte (vm.link p t k.word (PA2PTE p ||| PTE_V)).pte pgt y p) :
    Grown pgt vm ((vm.take p rest).link p t k.word (PA2PTE p ||| PTE_V)) := by
  set vm' := (vm.take p rest).link p t k.word (PA2PTE p ||| PTE_V)
  have hstatic : Static vm vm' := ⟨rfl, rfl, rfl, rfl⟩
  have hpte : vm'.pte = (vm.link p t k.word (PA2PTE p ||| PTE_V)).pte := rfl
  obtain ⟨hnotTable, hnotFrame, hmanaged, hrest⟩ := h.fresh hfree
  have htp : t ≠ p := fun heq => hnotTable x (heq ▸ ht)
  have htables : tableAt vm'.pte pgt = Function.update (tableAt vm.pte pgt) y (some p) :=
    hext.tables
  have hentries : entryAt vm'.pte pgt = entryAt vm.pte pgt := hext.entries
  have hframes : frameAt vm'.pte pgt = frameAt vm.pte pgt := by
    funext v
    rw [frameAt, frameAt, hentries]
  have htable (z : Table) (q : Uint64) (hz : tableAt vm'.pte pgt z = some q) :
      tableAt vm.pte pgt z = some q ∨ z = y ∧ q = p := by
    rw [htables, Function.update_apply] at hz
    split at hz
    · exact .inr ⟨‹_›, (Option.some.inj hz).symm⟩
    · exact .inl hz
  have hkeep (z : Table) (q : Uint64) (hz : tableAt vm.pte pgt z = some q) :
      tableAt vm'.pte pgt z = some q := by
    rw [htables, Function.update_of_ne]
    · exact hz
    · rintro rfl
      rw [hext.none] at hz
      exact absurd hz (by simp)
  have howns (q : Uint64) : Owns vm' pgt q ↔ Owns vm pgt q ∨ q = p := by
    rw [Owns, Owns, hframes, or_right_comm]
    refine or_congr ⟨fun ⟨z, hz⟩ => ?_, ?_⟩ Iff.rfl
    · rcases htable z q hz with hz | ⟨-, hq⟩
      · exact .inl ⟨z, hz⟩
      · exact .inr hq
    · rintro (⟨z, hz⟩ | rfl)
      · exact ⟨z, hkeep z q hz⟩
      · exact ⟨y, by rw [htables, Function.update_self]⟩
  have hpointers (hold : Pointers vm.pte pgt) : Pointers vm'.pte pgt := by
    intro z q hz hq' n c hc
    rw [hpte] at hc ⊢
    rcases htable z q hq' with hq | ⟨-, rfl⟩
    · have hqp : q ≠ p := fun heq => hnotTable z (heq ▸ hq)
      by_cases hqt : q = t
      · subst hqt
        rw [link_pte_table hqp] at hc ⊢
        by_cases hnk : n.word = k.word
        · rw [hnk, Function.update_self, nextTable_entry hmanaged.start, Option.some.injEq] at hc
          rw [hnk, Function.update_self, hc]
        · rw [Function.update_of_ne hnk] at hc ⊢
          exact hold z q hz hq n c hc
      · rw [link_pte_of_ne hqp hqt] at hc ⊢
        exact hold z q hz hq n c hc
    · rw [link_pte_new htp.symm, nextTable_zero] at hc
      cases hc
  refine ⟨⟨?_, ?_, hentries, hkeep, hpointers⟩, ⟨rfl, rfl⟩⟩
  · constructor
    case tables =>
      intro z w q hz' hw'
      rcases htable z q hz' with hz | ⟨hzy, hqp⟩
      · rcases htable w q hw' with hw | ⟨-, hqp⟩
        · exact h.tables z w q hz hw
        · exact absurd (hqp ▸ hz) (hnotTable z)
      · rcases htable w q hw' with hw | ⟨hwy, -⟩
        · exact absurd (hqp ▸ hw) (hnotTable w)
        · exact hzy.trans hwy.symm
    case frames => rw [hframes]; exact h.frames
    case apart =>
      intro z v q hz
      rw [hframes]
      rcases htable z q hz with hz | ⟨-, rfl⟩
      · exact h.apart z v q hz
      · exact hnotFrame v
    case inner =>
      intro z q hz hq' n hvalid
      rw [hpte] at hvalid ⊢
      rcases htable z q hq' with hq | ⟨-, rfl⟩
      · have hqp : q ≠ p := fun heq => hnotTable z (heq ▸ hq)
        by_cases hqt : q = t
        · subst hqt
          rw [link_pte_table hqp] at hvalid ⊢
          by_cases hnk : n.word = k.word
          · have hrwx : IsFlags PTE_RWX := isFlags_RWX
            rw [hnk, Function.update_self, BitVec.and_or_distrib_right, PA2PTE_and hrwx]
            decide
          · rw [Function.update_of_ne hnk] at hvalid ⊢
            exact h.inner z q hz hq n hvalid
        · rw [link_pte_of_ne hqp hqt] at hvalid ⊢
          exact h.inner z q hz hq n hvalid
      · rw [link_pte_new htp.symm] at hvalid
        exact absurd (show (0 : Uint64) &&& PTE_V = 0 by decide) hvalid
    case leaf => rw [hentries]; exact h.leaf
    case free => exact h.free.take hfree hstatic rfl
    case owned =>
      intro q hq
      rcases (howns q).1 hq with hq | rfl
      · obtain ⟨hout, hman⟩ := h.owned q hq
        exact ⟨fun hin => hout (by rw [hfree]; exact List.mem_cons_of_mem _ hin),
          hstatic.manages hman⟩
      · exact ⟨hrest, hstatic.manages hmanaged⟩
  · constructor
    case pte =>
      intro q hown hout
      have hqt : q ≠ t := fun heq => hown (.inl ⟨x, heq ▸ ht⟩)
      have hqp : q ≠ p := fun heq => hout (by rw [hfree, heq]; exact List.mem_cons_self)
      exact link_pte_of_ne hqp hqt _
    case byte =>
      intro a _ hout
      exact memset_page hmanaged.start
        (fun hap => hout (by rw [hfree, hap]; exact List.mem_cons_self)) _
    case pages =>
      intro q
      rw [howns, hfree, List.mem_cons]
      show q ∈ rest ∨ _ ↔ _
      tauto
    case static => exact hstatic

/-- A table was added: the first free page, linked from an entry of another table. -/
def AddsTable (pgt : Uint64) (vm vm' : Vm) : Prop :=
  ∃ (p : Uint64) (rest : List Uint64) (t : Uint64) (k : Index) (x y : Table),
    vm.freelist = p :: rest ∧ tableAt vm.pte pgt x = some t ∧ Extended vm.pte vm'.pte pgt y p ∧
      vm' = (vm.take p rest).link p t k.word (PA2PTE p ||| PTE_V)

theorem Good.addsTable (h : Good vm pgt) (hadd : AddsTable pgt vm vm') : Grown pgt vm vm' := by
  obtain ⟨p, rest, t, k, x, y, hfree, ht, hext, rfl⟩ := hadd
  exact h.addTable hfree ht hext

/-- What a walk that may add tables relies on. -/
structure TableTree (vm : Vm) (pgt : Uint64) : Prop where
  tables : TablesApart vm.pte pgt
  free : FreeOk vm
  taken : ∀ x p, tableAt vm.pte pgt x = some p → p ∉ vm.freelist

theorem Good.tree (h : Good vm pgt) : TableTree vm pgt :=
  ⟨h.tables, h.free, fun x p hx => (h.owned p (.inl ⟨x, hx⟩)).1⟩

section Rule

variable {I : Vm → Prop} (htree : ∀ vm, I vm → TableTree vm pgt)
  (hadd : ∀ vm vm', I vm → AddsTable pgt vm vm' → I vm')

include htree hadd

/-- One turn of the loop of `walk`, which may add a table. -/
theorem walkLevel_rule {level : Nat} {va : Uint64} (h : I vm)
    (ht : tableAt vm.pte pgt x = some t)
    (hy : tableAt vm.pte pgt y = nextTable (vm.pte t (index level va).word))
    (hext : ∀ p, (∀ z, tableAt vm.pte pgt z ≠ some p) → PageStart p → tableAt vm.pte pgt y = none →
      Extended vm.pte (vm.link p t (index level va).word (PA2PTE p ||| PTE_V)).pte pgt y p) :
    Ends (walkLevel level va true t) vm fun r vm' => I vm' ∧
      ∀ q, r = some q → tableAt vm'.pte pgt y = some q := by
  rw [walkLevel, PX_eq]
  refine .get_bind ?_
  refine .ite (fun hvalid => ?_) fun hinvalid => ?_
  · refine .pure ⟨h, fun q hq => ?_⟩
    rw [hy, nextTable, if_pos hvalid]
    exact hq
  have hnone : tableAt vm.pte pgt y = none := by rw [hy, nextTable, if_neg hinvalid]
  refine .ite (fun hno => absurd hno (by simp)) fun _ => ?_
  cases hfree : vm.freelist with
  | nil =>
    refine .bind_of_eq (kallocpage_nil hfree) (.ite (fun _ => ?_) fun hne => absurd rfl hne)
    exact .pure ⟨h, fun q hq => absurd hq (by simp)⟩
  | cons p rest =>
    have hmem : p ∈ vm.freelist := by rw [hfree]; exact List.mem_cons_self
    have hmanaged := (htree vm h).free.managed p hmem
    have hnotTable (z : Table) : tableAt vm.pte pgt z ≠ some p :=
      fun hz => (htree vm h).taken z p hz hmem
    have hextended := hext p hnotTable hmanaged.start hnone
    refine .bind_of_eq (kallocpage_cons hfree) (.ite (fun hzero => absurd hzero hmanaged.ne_zero)
      fun _ => ?_)
    refine .modify_bind (.pure ⟨hadd vm _ h ⟨p, rest, t, _, x, y, hfree, ht, hextended, rfl⟩,
      fun q hq => ?_⟩)
    obtain rfl := Option.some.inj hq
    show tableAt (vm.link p t (index level va).word (PA2PTE p ||| PTE_V)).pte pgt y = some p
    rw [hextended.tables, Function.update_self]

/-- **A walk that may add tables** keeps what every new table keeps, and finds the slot of the
page's entry, unless memory runs out. -/
theorem walk_rule {mm : Mm} {va : Uint64} (hpgt : mm.pgt = pgt) (h : I vm)
    (hva : IS_USER_VA va = true) :
    Ends (walk mm va true) vm fun r vm' => I vm' ∧
      (r = none ∨ ∃ t, r = some (t, (vpn va).l0.word) ∧
        tableAt vm'.pte pgt (.last (vpn va).l2 (vpn va).l1) = some t) := by
  rw [walk, hva, hpgt]
  refine .ite (fun hno => absurd hno (by simp)) fun _ => ?_
  have hroot := @walkLevel_rule _ _ _ .root (.mid (vpn va).l2) _ htree hadd 2 va h
    tableAt_root rfl fun p hfresh hp hnone =>
      extended_root (htree vm h).tables hfresh hnone (nextTable_entry hp)
  refine .bind hroot fun r vm₁ hstep => ?_
  obtain ⟨h₁, hr⟩ := hstep
  cases r with
  | none => exact .pure ⟨h₁, .inl rfl⟩
  | some level1 =>
    have hlevel1 := hr level1 rfl
    have hmid :=
      @walkLevel_rule _ _ _ (.mid (vpn va).l2) (.last (vpn va).l2 (vpn va).l1) _ htree hadd 1 va
        h₁ hlevel1 (by rw [tableAt_last, hlevel1]; rfl)
        fun p hfresh hp hnone => extended_mid (htree vm₁ h₁).tables hfresh hlevel1 hnone
          (nextTable_entry hp)
    refine .bind hmid fun r vm₂ hstep => ?_
    obtain ⟨h₂, hr⟩ := hstep
    cases r with
    | none => exact .pure ⟨h₂, .inl rfl⟩
    | some level0 =>
      refine .pure ⟨h₂, .inr ⟨level0, ?_, hr level0 rfl⟩⟩
      rw [PX_eq]
      rfl

end Rule

/-- A walk in a tree in good order. -/
theorem walk_ends {mm : Mm} {va : Uint64} (h : Good vm mm.pgt) (hva : IS_USER_VA va = true) :
    Ends (walk mm va true) vm fun r vm' => Grown mm.pgt vm vm' ∧
      (r = none ∨ ∃ t, r = some (t, (vpn va).l0.word) ∧
        tableAt vm'.pte mm.pgt (.last (vpn va).l2 (vpn va).l1) = some t) :=
  walk_rule (I := Grown mm.pgt vm) (fun _ hgrown => hgrown.good.tree)
    (fun _ _ hgrown hadd => hgrown.trans (hgrown.good.addsTable hadd)) rfl (Grown.refl h) hva

end Walk

end SignalOS
