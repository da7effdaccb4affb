import SignalOS.Vm.KvmMap

/-!
# The kernel's address space

The page table that `kvm_init` builds, from the first page of the boot stage on.

* `Region`, `lookup` — a map of an address space: ranges with their physical addresses and flags.
* `Booting` — the state between two mappings: the page table is the map so far, and the pages for
  stacks are nobody else's.
* `Booting.kvmmap`, `Booting.kvmStacks` — the steps of `kvmmake`.
* `Linked` — what the linker script and `bootcpu_start_relocation` say about the image.
-/

namespace SignalOS

open Partial RadixTree

/-! ## MapsRange -/

/-- A range of an address space. -/
structure Region where
  va : Uint64
  pa : Uint64
  sz : Uint64
  flags : Uint64

/-- The physical address and the flags behind an address. -/
def lookup : List Region → Uint64 → Option (Uint64 × Uint64)
  | [], _ => none
  | r :: rs, a =>
    if a - r.va < r.sz then some (r.pa + (a - r.va), r.flags ||| PTE_V) else lookup rs a

variable {rs rs' : List Region} {r : Region} {a : Uint64}

theorem lookup_append : lookup (rs ++ rs') a = (lookup rs a).or (lookup rs' a) := by
  induction rs with
  | nil => rfl
  | cons r rs ih =>
    rw [List.cons_append, lookup, lookup]
    split
    · rfl
    · exact ih

theorem lookup_none (h : ∀ r ∈ rs, ¬ a - r.va < r.sz) : lookup rs a = none := by
  induction rs with
  | nil => rfl
  | cons r rs ih =>
    rw [lookup, if_neg (h r List.mem_cons_self)]
    exact ih fun r hr => h r (List.mem_cons_of_mem _ hr)

/-- What is found is in one of the ranges. -/
theorem mem_of_lookup {x : Uint64 × Uint64} (h : lookup rs a = some x) :
    ∃ r ∈ rs, a - r.va < r.sz ∧ x = (r.pa + (a - r.va), r.flags ||| PTE_V) := by
  induction rs with
  | nil => cases h
  | cons r rs ih =>
    rw [lookup] at h
    split at h
    · exact ⟨r, List.mem_cons_self, ‹_›, (Option.some.inj h).symm⟩
    · obtain ⟨r', hr', hin⟩ := ih h
      exact ⟨r', List.mem_cons_of_mem _ hr', hin⟩

/-- Two ranges of addresses, none of which is around the end of the address space. -/
def Region.Apart (r r' : Region) : Prop :=
  r.va.toNat + r.sz.toNat ≤ r'.va.toNat ∨ r'.va.toNat + r'.sz.toNat ≤ r.va.toNat

instance (r r' : Region) : Decidable (r.Apart r') := inferInstanceAs (Decidable (_ ∨ _))

theorem Region.Apart.not_both {r r' : Region} (h : r.Apart r')
    (hr : r.va.toNat + r.sz.toNat < 2 ^ 64)
    (hr' : r'.va.toNat + r'.sz.toNat < 2 ^ 64) (hin : a - r.va < r.sz) : ¬ a - r'.va < r'.sz := by
  rw [Region.Apart] at h
  rw [BitVec.lt_def, BitVec.toNat_sub] at hin ⊢
  have := a.isLt
  omega

/-! ## Building the page table -/

/-- **The state between two mappings**, with the pages that were taken for stacks and a number of
pages that are left at least. -/
structure Booting (k₀ : Kvm) (root : Uint64) (rs : List Region) (kstack : List Uint64) (m : Nat)
    (k : Kvm) : Prop where
  tree : KernelTree k root
  tables : ∀ js p, js.length < 3 → table kindOf k.vm.pte root js = some p → p = root ∨ p ∈ k₀.fresh
  same : SameBoot { k₀ with schedKstackTop := k.schedKstackTop } k
  xlate : ∀ a, Mmu.xlate k.vm.pte root a = lookup rs a
  fits : ∀ r ∈ rs, r.va.toNat + r.sz.toNat < 2 ^ 64
  nodup : kstack.Nodup
  taken : ∀ p ∈ kstack, p ∈ k₀.fresh ∧ p ∉ k.fresh ∧ ∀ js, js.length < 3 →
    table kindOf k.vm.pte root js ≠ some p
  pages : m ≤ k.fresh.length

variable {k₀ k k₁ : Kvm} {root : Uint64} {kstack : List Uint64} {m n : Nat} {perm : Int}

/-- The range can be mapped by `kvmmap`. -/
structure Region.Ok (r : Region) : Prop where
  va_aligned : PageStart r.va
  pa_aligned : PageStart r.pa
  sz_aligned : PageStart r.sz
  range : r.va.toNat + r.sz.toNat ≤ 2 ^ 38 ∨ 2 ^ 64 - 2 ^ 38 ≤ r.va.toNat ∧
    r.va.toNat + r.sz.toNat < 2 ^ 64
  phys : r.pa.toNat + r.sz.toNat ≤ 2 ^ 56
  flags : LeafFlags r.flags

/-- The tables that a range needs at most. -/
def Region.tables (r : Region) : Nat :=
  ((r.va.toNat + r.sz.toNat - 1) / 2 ^ 30 + 1 - r.va.toNat / 2 ^ 30) +
    ((r.va.toNat + r.sz.toNat - 1) / 2 ^ 21 + 1 - r.va.toNat / 2 ^ 21)

/-- Pages that are nobody's stay so. -/
theorem Extends.taken_keeps {p : Uint64} (h : Extends root k k₁) (hp : p ∉ k.fresh)
    (htable : ∀ js, js.length < 3 → table kindOf k.vm.pte root js ≠ some p) :
    p ∉ k₁.fresh ∧ ∀ js, js.length < 3 → table kindOf k₁.vm.pte root js ≠ some p := by
  refine ⟨fun hin => hp (h.same.fresh.subset hin), fun js hjs ht => ?_⟩
  rcases h.taken js p hjs ht with ht | ht
  · exact htable js hjs ht
  · exact hp ht

/-- Pages are taken for tables. -/
theorem Booting.extends_tables (h : Booting k₀ root rs kstack m k) (hext : Extends root k k₁) :
    (∀ js p, js.length < 3 → table kindOf k₁.vm.pte root js = some p → p = root ∨ p ∈ k₀.fresh) ∧
      SameBoot { k₀ with schedKstackTop := k₁.schedKstackTop } k₁ := by
  refine ⟨fun js p hjs ht => ?_, ?_⟩
  · rcases hext.taken js p hjs ht with ht | hp
    · exact h.tables js p hjs ht
    · exact .inr (h.same.fresh.subset hp)
  · rw [hext.same.tops]
    exact h.same.trans hext.same

/-- **A range is mapped** that is apart from all ranges so far. -/
theorem Booting.kvmmap (h : Booting k₀ root rs kstack m k) (hr : r.Ok)
    (hperm : ofInt perm = r.flags)
    (hapart : ∀ r' ∈ rs, r.Apart r') (hn : r.tables ≤ n) (hm : n ≤ m) :
    Ends (kvmmap root r.va r.pa r.sz perm) k fun _ k' => Booting k₀ root (rs ++ [r]) kstack
      (m - n) k' ∧
      k'.schedKstackTop = k.schedKstackTop := by
  have hfits : r.va.toNat + r.sz.toNat < 2 ^ 64 := by
    have := hr.range
    omega
  have hsz := hr.sz_aligned
  rw [PageStart] at hsz
  have hmissing : k.missing root (tablesFor r.va (r.sz.toNat / 4096)) ≤ n := by
    refine (Kvm.missing_le ?_).trans (le_trans (le_of_eq ?_) hn)
    · omega
    · rw [Region.tables, Nat.mul_div_cancel' (Nat.dvd_of_mod_eq_zero hsz)]
  have hunmapped (a : Uint64) (ha : a - r.va < r.sz) : lookup rs a = none :=
    lookup_none fun r' hr' => (hapart r' hr').not_both hfits (h.fits r' hr') ha
  have hmap : Mappable k root r.va r.pa r.sz :=
    ⟨hr.va_aligned, hr.pa_aligned, hr.sz_aligned, hr.range, hr.phys, fun a ha => (h.xlate a).trans
      (hunmapped a ha),
      hmissing.trans (hm.trans h.pages)⟩
  refine (kvmmap_ends h.tree hmap (hperm ▸ hr.flags)).mono fun _ k' hk => ?_
  obtain ⟨hmaps, hused⟩ := hk
  obtain ⟨htables, hsame⟩ := h.extends_tables hmaps.toExtends
  refine ⟨⟨hmaps.tree, htables, hsame, fun a => ?_, fun r' hr' => ?_, h.nodup, fun p hp => ?_, ?_⟩,
    hmaps.same.tops⟩
  · rw [hmaps.xlate, h.xlate, lookup_append, hperm]
    by_cases ha : a - r.va < r.sz
    · rw [if_pos ha, hunmapped a ha, Option.none_or, lookup, if_pos ha]
    · rw [if_neg ha, lookup, if_neg ha, lookup, Option.or_none]
  · rcases List.mem_append.1 hr' with hr' | hr'
    · exact h.fits r' hr'
    · rw [List.mem_singleton.1 hr']
      exact hfits
  · obtain ⟨hin, hno, htable⟩ := h.taken p hp
    exact ⟨hin, hmaps.toExtends.taken_keeps hno htable⟩
  · have := h.pages
    omega

/-! ## The stacks of the schedulers -/

/-- The flags of the kernel's data. -/
def dataFlags : Uint64 := PTE_A ||| PTE_D ||| PTE_R ||| PTE_W

/-- Pages at an address. -/
def stackRegions : Uint64 → List Uint64 → List Region
  | _, [] => []
  | va, p :: ps => ⟨va, p, PGSIZE, dataFlags⟩ :: stackRegions (va + PGSIZE) ps

/-- A page is taken for a stack. -/
theorem Booting.allockernelpage (h : Booting k₀ root rs kstack m k) (hm : 0 < m) :
    Ends allockernelpage k fun r k' => ∃ p, r = PA_TO_KVA p ∧ PageStart p ∧ p.toNat < 2 ^ 56 ∧
      Booting k₀ root rs (kstack ++ [p]) (m - 1) k' ∧ k'.schedKstackTop = k.schedKstackTop := by
  obtain ⟨p, rest, hfresh⟩ := List.exists_cons_of_length_pos (hm.trans_le h.pages)
  have hin : p ∈ k.fresh := by rw [hfresh]; exact List.mem_cons_self
  obtain ⟨hstart, -, hlt⟩ := h.tree.fresh.page p hin
  have hnodup := h.tree.fresh.nodup
  rw [hfresh, List.nodup_cons] at hnodup
  refine (allockernelpage_fresh h.tree.fresh hfresh).mono fun r k' hr => ⟨p, hr.1, hstart, hlt, ?_,
    hr.2.2.2.2.tops⟩
  obtain ⟨-, hrest, hpte, hok, hsame⟩ := hr
  have htree : KernelTree k' root := by
    refine ⟨?_, ?_, fun q hq is his => ?_, hok⟩
    · rw [hpte]
      exact h.tree.apart
    · rw [hpte]
      exact h.tree.entries
    · rw [hpte]
      exact h.tree.unused q (hsame.fresh.subset hq) is his
  have hext : Extends root k k' := by
    refine ⟨htree, fun js q _ hq => ?_, fun js q _ hq => .inl ?_, hsame⟩
    · rw [hpte]
      exact hq
    · rw [hpte] at hq
      exact hq
  obtain ⟨htables, hsame₀⟩ := h.extends_tables hext
  refine ⟨htree, htables, hsame₀, fun a => ?_, h.fits, ?_, fun q hq => ?_, ?_⟩
  · rw [hpte]
    exact h.xlate a
  · refine List.nodup_append.2 ⟨h.nodup, List.nodup_singleton p, fun q hq q' hq' => ?_⟩
    rw [List.mem_singleton.1 hq']
    rintro rfl
    exact (h.taken q hq).2.1 hin
  · rcases List.mem_append.1 hq with hq | hq
    · obtain ⟨hold, hno, htable⟩ := h.taken q hq
      exact ⟨hold, hext.taken_keeps hno htable⟩
    · rw [List.mem_singleton.1 hq]
      refine ⟨h.same.fresh.subset hin, fun hin' => hnodup.1 (hrest ▸ hin'), fun js hjs => ?_⟩
      rw [hpte]
      exact h.tree.unused p hin js hjs
  · have := h.pages
    rw [hfresh, List.length_cons] at this
    rw [hrest]
    omega

theorem ofInt_permData : ofInt permData = dataFlags := by decide

theorem leafFlags_data : LeafFlags dataFlags := ⟨by decide, by decide, by decide⟩

theorem pageStart_PGSIZE : PageStart PGSIZE := by
  show PGSIZE.toNat % 4096 = 0
  rfl

/-- `n` pages of a stack are mapped. -/
theorem Booting.kvmStack {va : Uint64} (h : Booting k₀ root rs kstack m k) (hva : PageStart va)
    (hrange : 2 ^ 64 - 2 ^ 38 ≤ va.toNat ∧ va.toNat + 4096 * n < 2 ^ 64)
    (hapart : ∀ r ∈ rs, r.va.toNat + r.sz.toNat ≤ va.toNat ∨ va.toNat + 4096 * n ≤ r.va.toNat)
    (hm : 3 * n ≤ m) :
    Ends (kvmStack root n va) k fun _ k' => ∃ ps, ps.length = n ∧
      Booting k₀ root (rs ++ stackRegions va ps) (kstack ++ ps) (m - 3 * n) k' ∧
        k'.schedKstackTop = k.schedKstackTop := by
  rw [PageStart] at hva
  induction n generalizing va k m rs kstack with
  | zero => exact .pure ⟨[], rfl, by simpa [stackRegions] using h, rfl⟩
  | succ n ih =>
    refine .bind (h.allockernelpage (by omega)) fun r k₁ hr => ?_
    obtain ⟨p, rfl, hstart, hlt, h₁, htops₁⟩ := hr
    have hp := hstart
    rw [PageStart] at hp
    rw [KVA_TO_PA_add]
    have hpg : PGSIZE.toNat = 4096 := rfl
    have hok : (⟨va, p, PGSIZE, dataFlags⟩ : Region).Ok :=
      ⟨hva, hstart, pageStart_PGSIZE, .inr ⟨hrange.1, by show va.toNat + PGSIZE.toNat < _; omega⟩,
        by show p.toNat + PGSIZE.toNat ≤ _; omega, leafFlags_data⟩
    have htables : (⟨va, p, PGSIZE, dataFlags⟩ : Region).tables ≤ 2 := by
      show (va.toNat + PGSIZE.toNat - 1) / 2 ^ 30 + 1 - va.toNat / 2 ^ 30 +
        ((va.toNat + PGSIZE.toNat - 1) / 2 ^ 21 + 1 - va.toNat / 2 ^ 21) ≤ 2
      omega
    refine .bind (h₁.kvmmap hok ofInt_permData (fun r hr => ?_) htables (by omega))
      fun _ k₂ h₂ => ?_
    · have := hapart r hr
      show va.toNat + PGSIZE.toNat ≤ r.va.toNat ∨ r.va.toNat + r.sz.toNat ≤ va.toNat
      omega
    obtain ⟨h₂, htops₂⟩ := h₂
    have hnext : (va + PGSIZE).toNat = va.toNat + 4096 := by
      rw [BitVec.toNat_add, hpg]
      omega
    refine (ih h₂ (by omega) (by omega) (fun r hr => ?_) (by omega)).mono fun _ k₃ h₃ => ?_
    · rcases List.mem_append.1 hr with hr | hr
      · have := hapart r hr
        omega
      · rw [List.mem_singleton.1 hr]
        exact .inl (by show va.toNat + PGSIZE.toNat ≤ _; omega)
    · obtain ⟨ps, hlen, h₃, htops₃⟩ := h₃
      refine ⟨p :: ps, by rw [List.length_cons, hlen], ?_, htops₃.trans (htops₂.trans htops₁)⟩
      rw [List.append_assoc, List.append_assoc, show m - 1 - 2 - 3 * n = m - 3 * (n + 1) by omega]
        at h₃
      exact h₃

/-- The stacks of the schedulers, with a gap behind each of them. -/
def cpuRegions : Uint64 → List (List Uint64) → List Region
  | _, [] => []
  | s, ps :: pss => stackRegions s ps ++ cpuRegions (s + 2 * KERNEL_STACK_SIZE) pss

/-- Where a stack ends. -/
theorem stack_of_stackRegions {s : Uint64} {ps : List Uint64}
    (hfit : s.toNat + 4096 * ps.length < 2 ^ 64)
    (hr : r ∈ stackRegions s ps) : s.toNat ≤ r.va.toNat ∧ r.va.toNat + r.sz.toNat ≤ s.toNat +
    4096 * ps.length ∧
      r.sz = PGSIZE ∧ r.flags = dataFlags ∧ r.pa ∈ ps := by
  have hpg : PGSIZE.toNat = 4096 := rfl
  induction ps generalizing s with
  | nil => cases hr
  | cons p ps ih =>
    rw [List.length_cons] at hfit ⊢
    rw [stackRegions, List.mem_cons] at hr
    rcases hr with rfl | hr
    · refine ⟨le_rfl, ?_, rfl, rfl, List.mem_cons_self⟩
      show s.toNat + PGSIZE.toNat ≤ _
      omega
    · have hnext : (s + PGSIZE).toNat = s.toNat + 4096 := by
        rw [BitVec.toNat_add, hpg]
        omega
      obtain ⟨hlo, hhi, hsz, hflags, hpa⟩ := ih (by omega) hr
      exact ⟨by omega, by omega, hsz, hflags, List.mem_cons_of_mem _ hpa⟩

/-- **The stacks of `n` processors are mapped**, on pages of their own, and their tops are
recorded. -/
theorem Booting.kvmStacks {s : Uint64} {i : Nat} (h : Booting k₀ root rs kstack m k)
    (hs : PageStart s)
    (hrange : 2 ^ 64 - 2 ^ 38 ≤ s.toNat ∧ s.toNat + 16384 * n < 2 ^ 64)
    (hapart : ∀ r ∈ rs, r.va.toNat + r.sz.toNat ≤ s.toNat ∨ s.toNat + 16384 * n ≤ r.va.toNat)
    (hm : 6 * n ≤ m) :
    Ends (kvmStacks root n i s) k fun _ k' => ∃ pss : List (List Uint64), pss.length = n ∧
      (∀ ps ∈ pss, ps.length = 2) ∧
      Booting k₀ root (rs ++ cpuRegions s pss) (kstack ++ pss.flatten) (m - 6 * n) k' ∧
      ∀ j, k'.schedKstackTop j = if i ≤ j ∧ j < i + n then s + BitVec.ofNat 64
        (16384 * (j - i) + 8192)
        else k.schedKstackTop j := by
  rw [PageStart] at hs
  induction n generalizing s i k m rs kstack with
  | zero =>
    refine .pure ⟨[], rfl, fun ps hps =>
      (List.not_mem_nil hps).elim, by simpa [cpuRegions] using h, fun j => ?_⟩
    rw [if_neg (by omega)]
  | succ n ih =>
    have htwo : (KERNEL_STACK_SIZE / PGSIZE).toNat = 2 := by decide
    have hsize : (2 * KERNEL_STACK_SIZE).toNat = 16384 := by decide
    have hnext : (s + 2 * KERNEL_STACK_SIZE).toNat = s.toNat + 16384 := by
      rw [BitVec.toNat_add, hsize]
      omega
    refine .bind (h.kvmStack (n := (KERNEL_STACK_SIZE / PGSIZE).toNat) hs ⟨hrange.1, by omega⟩
      (fun r hr => ?_)
      (by omega)) fun _ k₁ h₁ => ?_
    · have := hapart r hr
      omega
    obtain ⟨ps, hlen, h₁, htops₁⟩ := h₁
    rw [htwo] at hlen h₁
    refine .modify_bind ?_
    set k₂ : Kvm :=
      { k₁ with schedKstackTop := Function.update k₁.schedKstackTop i (s + KERNEL_STACK_SIZE) }
        with hk₂
    have h₂ : Booting k₀ root (rs ++ stackRegions s ps) (kstack ++ ps) (m - 3 * 2) k₂ := by
      refine ⟨⟨h₁.tree.apart, h₁.tree.entries, h₁.tree.unused,
        ⟨h₁.tree.fresh.nodup, h₁.tree.fresh.page,
        h₁.tree.fresh.boot⟩⟩, h₁.tables, ⟨h₁.same.base, h₁.same.inited, rfl, h₁.same.list,
          h₁.same.fresh⟩, h₁.xlate,
        h₁.fits, h₁.nodup, h₁.taken, h₁.pages⟩
    refine (ih h₂ (by omega) (by omega) (fun r hr => ?_) (by omega)).mono fun _ k₃ h₃ => ?_
    · rcases List.mem_append.1 hr with hr | hr
      · have := hapart r hr
        omega
      · obtain ⟨-, hhi, -⟩ := stack_of_stackRegions (by omega) hr
        omega
    obtain ⟨pss, hlens, hall, h₃, htops₃⟩ := h₃
    refine ⟨ps :: pss, by rw [List.length_cons, hlens], fun qs hqs => ?_, ?_, fun j => ?_⟩
    · rcases List.mem_cons.1 hqs with rfl | hqs
      · exact hlen
      · exact hall qs hqs
    · rw [List.append_assoc, List.append_assoc, show m - 3 * 2 - 6 * n = m - 6 * (n + 1) by omega]
        at h₃
      exact h₃
    · rw [htops₃, hk₂]
      by_cases hlater : i + 1 ≤ j ∧ j < i + 1 + n
      · rw [if_pos hlater, if_pos (by omega)]
        apply BitVec.eq_of_toNat_eq
        rw [BitVec.toNat_add, hnext, BitVec.toNat_add, BitVec.toNat_ofNat, BitVec.toNat_ofNat]
        omega
      · rw [if_neg hlater]
        by_cases hj : j = i
        · subst hj
          rw [if_pos (by omega), Nat.sub_self]
          exact Function.update_self ..
        · rw [if_neg (by omega)]
          exact (Function.update_of_ne hj ..).trans (congrFun htops₁ j)

end SignalOS
