import SignalOS.Vm.AddressSpace

/-!
# Making and freeing an address space

* `Under`, `freepgt_ends` — **`freepgt` frees every table of a tree once**.
* `mmFree_ends` — **`mm_free` gives back all pages of an address space**.
* `CreateEnds`, `mmCreate_ends` — `mm_create` makes an address space with the kernel's
  two pages; when it runs out of memory it may keep the tables below the root.
-/

namespace SignalOS

open Partial

variable {vm vm' : Vm} {mm : Mm} {pte pte' : Uint64 → Uint64 → Uint64} {t p : Uint64} {l : Nat}

/-! ## The tables of a subtree -/

/-- The page is a table of the tree below `t`, which is `l` levels above the last. -/
def Under (pte : Uint64 → Uint64 → Uint64) : Nat → Uint64 → Uint64 → Prop
  | 0, t, p => p = t
  | l + 1, t, p =>
    p = t ∨ ∃ (i : Index) (c : Uint64), nextTable (pte t i.word) = some c ∧ Under pte l c p

/-- What tells tables from leaves is right in the tree below `t`, and no page is a table twice. -/
def Sound (pte : Uint64 → Uint64 → Uint64) : Nat → Uint64 → Prop
  | 0, t => ∀ i : Index, pte t i.word &&& PTE_V ≠ 0 → pte t i.word &&& PTE_RWX ≠ 0
  | l + 1, t => ∀ (i : Index) (c : Uint64), nextTable (pte t i.word) = some c →
      pte t i.word &&& PTE_RWX = 0 ∧ Sound pte l c ∧ ¬ Under pte l c t ∧
      ∀ (j : Index) (d p : Uint64), i ≠ j → nextTable (pte t j.word) = some d → Under pte l c p →
        ¬ Under pte l d p

theorem under_self (pte : Uint64 → Uint64 → Uint64) (l : Nat) (t : Uint64) : Under pte l t t := by
  cases l with
  | zero => rfl
  | succ l => exact .inl rfl

theorem under_child {i : Index} {c : Uint64} (hc : nextTable (pte t i.word) = some c)
    (h : Under pte l c p) :
    Under pte (l + 1) t p := .inr ⟨i, c, hc, h⟩

theorem under_congr (h : ∀ p, Under pte l t p → pte' p = pte p) :
    Under pte' l t = Under pte l t := by
  induction l generalizing t with
  | zero => rfl
  | succ l ih =>
    have ht := h t (under_self pte _ t)
    funext p
    simp only [Under, ht]
    refine propext (or_congr Iff.rfl (exists_congr fun i => exists_congr fun c =>
      and_congr_right fun hc => ?_))
    rw [ih fun q hq => h q (under_child hc hq)]

theorem sound_congr (h : ∀ p, Under pte l t p → pte' p = pte p) (hsound : Sound pte l t) :
    Sound pte' l t := by
  induction l generalizing t with
  | zero =>
    intro i
    rw [h t rfl]
    exact hsound i
  | succ l ih =>
    intro i c hc
    rw [h t (under_self pte _ t)] at hc ⊢
    obtain ⟨hrwx, hsub, hself, hother⟩ := hsound i c hc
    have hunder {j : Index} {d : Uint64} (hd : nextTable (pte t j.word) = some d) :
        Under pte' l d = Under pte l d := under_congr fun q hq => h q (under_child hd hq)
    refine ⟨hrwx, ih (fun q hq => h q (under_child hc hq)) hsub, ?_, fun j d p hij hd hp => ?_⟩
    · rw [hunder hc]
      exact hself
    · rw [hunder hc] at hp
      rw [hunder hd]
      exact hother j d p hij hd hp

/-! ## Frames of what is released -/

/-- An operation on some pages leaves the others alone. -/
theorem Evolves.frame {own own' : Uint64 → Prop} (h : Evolves own own' vm vm')
    (rest : Uint64 → Prop) :
    Evolves (fun p => own p ∨ rest p) (fun p => own' p ∨ rest p) vm vm' := by
  refine ⟨fun t hown => h.pte t fun ht => hown (.inl ht), fun a hown => h.byte a fun ha =>
    hown (.inl ha),
    fun p => ?_, h.static⟩
  rw [← or_assoc, ← or_assoc, h.pages p]

/-- Giving a page back. -/
theorem give_evolves (hp : vm.Manages p) : Evolves (· = p) (fun _ => False) vm (vm.give p) := by
  refine ⟨fun _ _ _ => rfl, fun a hown _ => memset_page hp.start hown _, fun q => ?_,
    ⟨rfl, rfl, rfl, rfl⟩⟩
  show q ∈ p :: vm.freelist ∨ False ↔ _
  rw [List.mem_cons, or_false, or_comm]

theorem give_freeOk (hfree : FreeOk vm) (hp : vm.Manages p) (hout : p ∉ vm.freelist) :
    FreeOk (vm.give p) := by
  have hstatic : Static vm (vm.give p) := ⟨rfl, rfl, rfl, rfl⟩
  refine ⟨List.nodup_cons.2 ⟨hout, hfree.nodup⟩, fun q hq => ?_⟩
  rcases List.mem_cons.1 hq with rfl | hq
  · exact hstatic.manages hp
  · exact hstatic.manages (hfree.managed q hq)

/-- Storing an entry of a table that is owned. -/
theorem setPte_evolves {own : Uint64 → Prop} (ht : own t) (a e : Uint64) :
    Evolves own own vm (vm.setPte t a e) :=
  ⟨fun q hown _ => setPte_of_ne (fun heq : q = t => hown (heq ▸ ht)) _, fun _ _ _ => rfl,
    fun _ => Iff.rfl,
    ⟨rfl, rfl, rfl, rfl⟩⟩

/-! ## `freepgt` -/

/-- What is done when some of the pages `own` are given back and the pages `own'` are left. -/
structure Releases (own own' : Uint64 → Prop) (vm vm' : Vm) : Prop where
  evolves : Evolves own own' vm vm'
  free : FreeOk vm'
  taken : ∀ p, own' p → p ∉ vm'.freelist
  pools : SamePools vm vm'

/-- The pages that are left while the loop of `freepgt` runs. -/
def Remains (pte : Uint64 → Uint64 → Uint64) (l : Nat) (t : Uint64) (done : List Nat)
    (p : Uint64) : Prop :=
  p = t ∨ ∃ (i : Index) (c : Uint64), i.val ∉ done ∧ nextTable (pte t i.word) = some c ∧
    Under pte l c p

/-- The invariant of the loop of `freepgt`. -/
structure Freeing (vm : Vm) (l : Nat) (t : Uint64) (done : List Nat) (vm' : Vm) : Prop where
  releases : Releases (Under vm.pte (l + 1) t) (Remains vm.pte l t done) vm vm'
  table : ∀ i : Index, i.val ∉ done → vm'.pte t i.word = vm.pte t i.word
  below : ∀ (i : Index) (c p : Uint64), i.val ∉ done → nextTable (vm.pte t i.word) = some c →
    Under vm.pte l c p → vm'.pte p = vm.pte p

theorem freepgt_table (t : Uint64) (i : Index) (vm : Vm) :
    loadPte (t, i.word) vm = some (vm.pte t i.word, vm) :=
  rfl

/-- An entry that is skipped has no table. -/
theorem Freeing.skip {done : List Nat} {i : Index} (h : Freeing vm l t done vm')
    (hnone : nextTable (vm.pte t i.word) = none) : Freeing vm l t (done ++ [i.val]) vm' := by
  have hsub {j : Index} (hj : j.val ∉ done ++ [i.val]) : j.val ∉ done :=
    fun hin => hj (List.mem_append_left _ hin)
  have hremains (p : Uint64) : Remains vm.pte l t (done ++ [i.val]) p ↔
      Remains vm.pte l t done p := by
    refine or_congr Iff.rfl ⟨fun ⟨j, c, hj, hc⟩ => ⟨j, c, hsub hj, hc⟩, fun ⟨j, c, hj, hc, hp⟩ =>
      ⟨j, c, ?_, hc, hp⟩⟩
    rw [List.mem_append, List.mem_singleton, not_or]
    refine ⟨hj, fun heq => ?_⟩
    rw [Fin.ext heq, hnone] at hc
    exact absurd hc (by simp)
  refine ⟨⟨?_, h.releases.free, fun p hp => h.releases.taken p ((hremains p).1 hp),
    h.releases.pools⟩,
    fun j hj => h.table j (hsub hj), fun j c p hj => h.below j c p (hsub hj)⟩
  exact h.releases.evolves.congr (fun _ => Iff.rfl) hremains

/-- The table that an entry points to was freed, and the entry is cleared. -/
theorem Freeing.child {done : List Nat} {i : Index} {c : Uint64} {vm'' : Vm}
    (h : Freeing vm l t done vm')
    (hsound : Sound vm.pte (l + 1) t) (hi : i.val ∉ done)
    (hc : nextTable (vm.pte t i.word) = some c)
    (hchild : Releases (Under vm.pte l c) (fun _ => False) vm' vm'') :
    Freeing vm l t (done ++ [i.val]) (vm''.setPte t i.word 0) := by
  have hsub {j : Index} (hj : j.val ∉ done ++ [i.val]) : j.val ∉ done ∧ i ≠ j := by
    rw [List.mem_append, List.mem_singleton, not_or] at hj
    exact ⟨hj.1, fun heq => hj.2 (congrArg Fin.val heq.symm)⟩
  obtain ⟨-, -, hself, hother⟩ := hsound i c hc
  -- the pages that are left are not those of the child
  have hleft {p : Uint64} (hp : Remains vm.pte l t (done ++ [i.val]) p) :
      Remains vm.pte l t done p ∧ ¬ Under vm.pte l c p := by
    rcases hp with rfl | ⟨j, d, hj, hd, hp⟩
    · exact ⟨.inl rfl, hself⟩
    · exact ⟨.inr ⟨j, d, (hsub hj).1, hd, hp⟩, fun hunder => hother j d p (hsub hj).2 hd hunder hp⟩
  have hremains (p : Uint64) : Remains vm.pte l t done p ↔
      Under vm.pte l c p ∨ Remains vm.pte l t (done ++ [i.val]) p := by
    constructor
    · rintro (rfl | ⟨j, d, hj, hd, hp⟩)
      · exact .inr (.inl rfl)
      · by_cases heq : i = j
        · subst heq
          obtain rfl := Option.some.inj (hc.symm.trans hd)
          exact .inl hp
        · refine .inr (.inr ⟨j, d, ?_, hd, hp⟩)
          rw [List.mem_append, List.mem_singleton, not_or]
          exact ⟨hj, fun hval => heq (Fin.ext hval.symm)⟩
    · rintro (hp | hp)
      · exact .inr ⟨i, c, hi, hc, hp⟩
      · exact (hleft hp).1
  have hkept {p : Uint64} (hp : Remains vm.pte l t (done ++ [i.val]) p) : vm''.pte p = vm'.pte p :=
    hchild.evolves.pte p (hleft hp).2 (h.releases.taken p (hleft hp).1)
  have hstep : Evolves (Remains vm.pte l t done) (Remains vm.pte l t (done ++ [i.val])) vm'
      (vm''.setPte t i.word 0) := by
    have hframe := hchild.evolves.frame (Remains vm.pte l t (done ++ [i.val]))
    refine (hframe.congr hremains fun p => ?_).trans (setPte_evolves (.inl rfl) _ _)
    rw [false_or]
  refine ⟨⟨h.releases.evolves.trans hstep, ?_, fun p hp => ?_, ?_⟩, fun j hj => ?_,
    fun j d p hj hd hp => ?_⟩
  · have hstatic : Static vm'' (vm''.setPte t i.word 0) := ⟨rfl, rfl, rfl, rfl⟩
    exact ⟨hchild.free.nodup, fun p hp => hstatic.manages (hchild.free.managed p hp)⟩
  · show p ∉ vm''.freelist
    intro hin
    rcases (hchild.evolves.pages p).1 (.inl hin) with hin | hunder
    · exact h.releases.taken p (hleft hp).1 hin
    · exact (hleft hp).2 hunder
  · exact h.releases.pools.trans ⟨hchild.pools.mm, hchild.pools.vma⟩
  · rw [setPte_self, Function.update_of_ne fun heq => (hsub hj).2 (Index.word_inj.1 heq).symm,
      hkept (.inl rfl), h.table j (hsub hj).1]
  · have hpt : p ≠ t := by
      rintro rfl
      exact (hsound j d hd).2.2.1 hp
    rw [setPte_of_ne hpt, hkept (.inr ⟨j, d, hj, hd, hp⟩), h.below j d p (hsub hj).1 hd hp]

/-- **`freepgt` frees every table of a tree once.** -/
theorem freepgt_ends (hfree : FreeOk vm) (hsound : Sound vm.pte l t)
    (howned : ∀ p, Under vm.pte l t p → p ∉ vm.freelist ∧ vm.Manages p) :
    Ends (freepgt (l + 1) t) vm fun _ vm' => Releases (Under vm.pte l t) (fun _ => False) vm
      vm' := by
  induction l generalizing vm t with
  | zero =>
    -- the entries of a table of the last level are leaves
    obtain ⟨hout, hmanaged⟩ := howned t rfl
    refine .bind (Q := fun _ vm' => vm' = vm) (.forM (fun _ vm' => vm' = vm) rfl ?_)
      fun _ vm' hvm' => ?_
    · intro done b rest vm' hlist hvm'
      subst hvm'
      have hb : b < 512 := List.mem_range.1 (by rw [hlist]; simp)
      refine .bind_of_eq (freepgt_table t ⟨b, hb⟩ vm') (.ite (fun hc => ?_) fun _ => .pure rfl)
      exact absurd hc.2 (hsound ⟨b, hb⟩ hc.1)
    · subst hvm'
      refine .of_eq (kfreepage_eq hmanaged) ⟨?_, give_freeOk hfree hmanaged hout,
        fun _ hno => hno.elim, ⟨rfl, rfl⟩⟩
      exact give_evolves hmanaged
  | succ l ih =>
    obtain ⟨hout, hmanaged⟩ := howned t (under_self _ _ _)
    have hstart : Freeing vm l t [] vm := by
      have hremains (p : Uint64) : Remains vm.pte l t [] p ↔ Under vm.pte (l + 1) t p := by
        simp only [Remains, Under, List.not_mem_nil, not_false_eq_true, true_and]
      refine ⟨⟨?_, hfree, fun p hp => (howned p ((hremains p).1 hp)).1, SamePools.refl vm⟩,
        fun _ _ => rfl,
        fun _ _ _ _ _ _ => rfl⟩
      exact (Evolves.refl _ vm).congr (fun _ => Iff.rfl) hremains
    refine .bind (.forM (Freeing vm l t) hstart ?_) fun _ vm' hloop => ?_
    · intro done b rest vm' hlist hdone
      have hb : b < 512 := List.mem_range.1 (by rw [hlist]; simp)
      have hnodup := List.nodup_range (n := 512)
      rw [hlist] at hnodup
      have hnotin : b ∉ done :=
        fun hin => (List.nodup_append.1 hnodup).2.2 b hin b List.mem_cons_self rfl
      have hentry := hdone.table ⟨b, hb⟩ hnotin
      refine .bind_of_eq (freepgt_table t ⟨b, hb⟩ vm') (.ite (fun hc => ?_) fun hc => .pure ?_)
      · -- a table of the next level
        rw [hentry] at hc
        have hnext : nextTable (vm.pte t (Index.word ⟨b, hb⟩)) = some
            (PTE2PA (vm.pte t (Index.word ⟨b, hb⟩))) :=
          if_pos hc.1
        have hsame (p : Uint64) (hp : Under vm.pte l (PTE2PA (vm.pte t (Index.word ⟨b, hb⟩))) p) :=
          hdone.below ⟨b, hb⟩ _ p hnotin hnext hp
        have hunder := under_congr hsame
        have hchild :=
          ih hdone.releases.free (sound_congr hsame (hsound _ _ hnext).2.1) fun p hp => by
            rw [hunder] at hp
            exact ⟨hdone.releases.taken p (.inr ⟨_, _, hnotin, hnext, hp⟩),
              hdone.releases.evolves.static.manages (howned p (under_child hnext hp)).2⟩
        rw [hunder] at hchild
        rw [hentry]
        refine .bind hchild fun _ vm'' hreleased => ?_
        exact .of_eq rfl (hdone.child hsound hnotin hnext hreleased)
      · refine hdone.skip (i := ⟨b, hb⟩) ?_
        rw [hentry] at hc
        by_contra hnext
        obtain ⟨c, hc'⟩ := Option.ne_none_iff_exists'.1 hnext
        have hvalid : vm.pte t (Index.word ⟨b, hb⟩) &&& PTE_V ≠ 0 := by
          intro hzero
          rw [nextTable, if_neg (not_not.2 hzero)] at hc'
          exact absurd hc' (by simp)
        exact hc ⟨hvalid, (hsound _ _ hc').1⟩
    · have hremains (p : Uint64) : p = t ↔ Remains vm.pte l t (List.range 512) p := by
        refine ⟨.inl, fun hp => hp.resolve_right ?_⟩
        rintro ⟨i, c, hi, -⟩
        exact hi (List.mem_range.2 i.isLt)
      have hman' := hloop.releases.evolves.static.manages hmanaged
      have hout' := hloop.releases.taken t (.inl rfl)
      refine .of_eq (kfreepage_eq hman') ⟨?_, give_freeOk hloop.releases.free hman' hout',
        fun _ hno => hno.elim, ?_⟩
      · exact (hloop.releases.evolves.congr (fun _ => Iff.rfl) hremains).trans (give_evolves hman')
      · exact hloop.releases.pools.trans ⟨rfl, rfl⟩

/-! ## `mm_free` -/

theorem under_last {pgt : Uint64} {i j : Index} (h : tableAt pte pgt (.last i j) = some t) :
    Under pte 0 t p ↔ tableAt pte pgt (.last i j) = some p := by
  rw [h, Option.some.injEq]
  exact eq_comm

theorem under_mid {pgt : Uint64} {i : Index} (h : tableAt pte pgt (.mid i) = some t) :
    Under pte 1 t p ↔ tableAt pte pgt (.mid i) = some p ∨ ∃ j, tableAt pte pgt (.last i j) =
      some p := by
  rw [h, Option.some.injEq]
  refine or_congr eq_comm (exists_congr fun j => ?_)
  rw [tableAt_last, h, Option.bind_some]
  constructor
  · rintro ⟨c, hc, hp⟩
    rw [hc]
    exact congrArg some hp.symm
  · exact fun hc => ⟨p, hc, rfl⟩

/-- The tables of an address space are those of the tree below its root. -/
theorem under_root {pgt : Uint64} : Under pte 2 pgt p ↔ ∃ x, tableAt pte pgt x = some p := by
  constructor
  · rintro (rfl | ⟨i, c, hc, hp⟩)
    · exact ⟨.root, rfl⟩
    · rcases (under_mid (i := i) hc).1 hp with hp | ⟨j, hp⟩
      · exact ⟨_, hp⟩
      · exact ⟨_, hp⟩
  · rintro ⟨x, hx⟩
    cases x with
    | root => exact .inl (Option.some.inj hx).symm
    | mid i => exact under_child hx (under_self _ _ _)
    | last i j =>
      cases hi : tableAt pte pgt (.mid i) with
      | none =>
        rw [tableAt_last, hi] at hx
        exact absurd hx (by simp)
      | some t => exact under_child hi ((under_mid hi).2 (.inr ⟨j, hx⟩))

theorem valid_of_nextTable {e c : Uint64} (h : nextTable e = some c) : e &&& PTE_V ≠ 0 := by
  intro hzero
  rw [nextTable, if_neg (not_not.2 hzero)] at h
  exact absurd h (by simp)

/-- A tree in good order can be freed. -/
theorem Good.sound {pgt : Uint64} (h : Good vm pgt) : Sound vm.pte 2 pgt := by
  intro i c hc
  have hmid : tableAt vm.pte pgt (.mid i) = some c := hc
  refine ⟨h.inner .root pgt trivial rfl i (valid_of_nextTable hc), ?_, fun hself => ?_,
    fun i' d p hne hd hp hp' => ?_⟩
  · intro j c' hc'
    have hlast : tableAt vm.pte pgt (.last i j) = some c' := by rw [tableAt_last, hmid]; exact hc'
    refine ⟨h.inner (.mid i) c trivial hmid j (valid_of_nextTable hc'), fun k hvalid => ?_,
      fun hself => ?_,
      fun j' d p hne hd hp hp' => ?_⟩
    · have hentry := entryAt_eq (v := ⟨i, j, k⟩) hlast
      rcases h.leaf ⟨i, j, k⟩ with hzero | hleaf
      · rw [← hentry, hzero] at hvalid
        exact absurd zero_and_V hvalid
      · rw [← hentry]
        exact hleaf.2
    · exact h.tables.ne hmid hlast (by simp) hself
    · have hlast' : tableAt vm.pte pgt (.last i j') = some d := by
        rw [tableAt_last, hmid]; exact hd
      rw [under_last hlast] at hp
      rw [under_last hlast'] at hp'
      exact hne (Table.last.inj (h.tables _ _ _ hp hp')).2
  · rcases (under_mid hmid).1 hself with hself | ⟨j, hself⟩
    · exact absurd (h.tables _ _ _ hself tableAt_root) (by simp)
    · exact absurd (h.tables _ _ _ hself tableAt_root) (by simp)
  · have hmid' : tableAt vm.pte pgt (.mid i') = some d := hd
    rcases (under_mid hmid).1 hp with hp | ⟨j, hp⟩
    · rcases (under_mid hmid').1 hp' with hp' | ⟨j', hp'⟩
      · exact hne (Table.mid.inj (h.tables _ _ _ hp hp'))
      · exact absurd (h.tables _ _ _ hp hp') (by simp)
    · rcases (under_mid hmid').1 hp' with hp' | ⟨j', hp'⟩
      · exact absurd (h.tables _ _ _ hp hp') (by simp)
      · exact hne (Table.last.inj (h.tables _ _ _ hp hp')).1

theorem kfreeMm_ends (obj : Uint64) (vm : Vm) :
    Ends (kfreeMm obj) vm fun _ vm' => SameMemory vm vm' ∧ vm'.vmaAllocator = vm.vmaAllocator ∧
      vm'.mmAllocator = pushObj obj vm.mmAllocator := by
  refine .of_eq rfl ?_
  by_cases hobj : obj = 0
  · rw [if_pos hobj, pushObj, if_pos hobj]
    exact ⟨⟨rfl, rfl, rfl, Static.refl vm⟩, rfl, rfl⟩
  · rw [if_neg hobj, pushObj, if_neg hobj]
    exact ⟨⟨rfl, rfl, rfl, ⟨rfl, rfl, rfl, rfl⟩⟩, rfl, rfl⟩

/-- **`mm_free` gives back all pages of an address space**, and its objects. -/
theorem mmFree_ends (h : Tidy vm mm) (href : 0 < mm.refcnt) :
    Ends (mmFree mm) vm fun _ vm' => Evolves (Owns vm mm.pgt) (fun _ => False) vm vm' ∧
      FreeOk vm' ∧
      vm'.mmAllocator = pushObj mm.addr vm.mmAllocator ∧
        vm'.vmaAllocator = pushVmas mm.vma vm.vmaAllocator := by
  refine .bind_of_eq (kassert_true (decide_eq_true href)) ?_
  refine .bind (mmFreeVmas_ends h) fun mm' vm₁ hfreed => ?_
  obtain ⟨rfl, hchanges, hmms, hvmas⟩ := hfreed
  have howns (p : Uint64) : Owns vm₁ mm.pgt p ↔ Under vm₁.pte 2 mm.pgt p := by
    rw [Owns, under_root]
    refine or_iff_left ?_
    rintro ⟨v, hv⟩
    rw [h.no_frames hchanges v] at hv
    exact absurd hv (by simp)
  have hfreed := freepgt_ends (l := 2) (t := mm.pgt) hchanges.good.free hchanges.good.sound
    fun p hp => hchanges.good.owned p ((howns p).2 hp)
  refine .bind hfreed fun _ vm₂ hreleased => ?_
  refine (kfreeMm_ends _ vm₂).mono fun _ vm₃ hkfree => ?_
  obtain ⟨hsame, hvmas', hmms'⟩ := hkfree
  refine ⟨?_, ?_, ?_, ?_⟩
  · exact (hchanges.evolves.trans (hreleased.evolves.congr howns fun _ => Iff.rfl)).trans
      (hsame.evolves _)
  · exact hsame.freeOk hreleased.free
  · rw [hmms', hreleased.pools.mm, hmms]
  · rw [hvmas', hreleased.pools.vma, hvmas]

/-! ## `mm_create` -/

/-- The flags of a page that only the kernel uses. -/
structure KernelFlags (f : Uint64) : Prop where
  isFlags : IsFlags f
  user : f &&& PTE_U = 0
  rwx : f &&& PTE_RWX ≠ 0

theorem frameOf_kernel {f : Uint64} (hf : KernelFlags f) :
    frameOf (PA2PTE p ||| f ||| PTE_V) = none := by
  refine if_neg fun hc => hc.2 ?_
  rw [entry_and isFlags_U (by decide), hf.user]

/-- `mm_mappageat` of a page of the kernel in an address space without vmas. -/
theorem mmMappageat_ends {va pa flags : Uint64} (h : Good vm mm.pgt) (hvma : mm.vma = [])
    (hva : IS_USER_VA va = true) (hflags : KernelFlags flags) (hzero : entryAt vm.pte mm.pgt
    (vpn va) = 0) :
    Ends (mmMappageat mm va pa flags) vm fun r vm' =>
      (r = 0 ∧ Becomes mm.pgt (Function.update (entryAt vm.pte mm.pgt) (vpn va)
        (PA2PTE pa ||| flags ||| PTE_V)) vm vm') ∨
        (r = -EINVAL ∧ Grown mm.pgt vm vm') := by
  have hoverlap : vmaCheckOverlap mm va (va + PGSIZE) 0 = false := by
    rw [vmaCheckOverlap, hvma]
    simp
  refine .ite (fun hno => absurd hno (by simp [hva])) fun _ => ?_
  rw [hoverlap]
  refine .ite (fun hno => absurd hno (by simp)) fun _ => ?_
  refine .bind (walk_ends h hva) fun r vm₁ ⟨hgrown, hr⟩ => ?_
  rcases hr with rfl | ⟨t, rfl, ht⟩
  · exact .pure (.inr ⟨rfl, hgrown⟩)
  refine .bind_of_eq (a := entryAt vm₁.pte mm.pgt (vpn va)) (t := vm₁)
    (by rw [entryAt_eq ht]; rfl) ?_
  rw [hgrown.entries, hzero]
  refine .ite (fun hvalid => absurd zero_and_V hvalid) fun _ => ?_
  have hleaf : Leaf (PA2PTE pa ||| flags ||| PTE_V) := by
    refine ⟨or_V_ne_zero _, ?_⟩
    rw [entry_and isFlags_RWX (by decide)]
    exact hflags.rwx
  have hframe : frameOf (PA2PTE pa ||| flags ||| PTE_V) = frameAt vm₁.pte mm.pgt (vpn va) := by
    rw [frameOf_kernel hflags, frameAt, hgrown.entries, hzero, frameOf_zero]
  have hstored := Becomes.trans hgrown (hgrown.good.setFlags ht hframe hleaf)
  rw [hgrown.entries] at hstored
  exact .modify_bind (.pure (.inl ⟨rfl, hstored⟩))

/-- The entries of a new address space. -/
def kernelEntries (trampoline tf : Uint64) : Vpn → Uint64 :=
  Function.update (Function.update (fun _ => 0) (vpn TRAMPOLINE)
      (PA2PTE trampoline ||| (PTE_A ||| PTE_R ||| PTE_X) ||| PTE_V))
    (vpn TRAPFRAME) (PA2PTE tf ||| (PTE_A ||| PTE_D ||| PTE_R ||| PTE_W) ||| PTE_V)

/-- How `mm_create` may end. -/
inductive CreateEnds (vm : Vm) (tf : Uint64) : Option Mm → Vm → Prop where
  | created {vm' : Vm} {obj pgt : Uint64} (good : Good vm' pgt)
      (evolves : Evolves (fun _ => False) (Owns vm' pgt) vm vm')
      (entries : entryAt vm'.pte pgt = kernelEntries vm.trampoline tf)
      (mms : vm.mmAllocator = obj :: vm'.mmAllocator) (vmas : vm'.vmaAllocator = vm.vmaAllocator)
      (pointers : Pointers vm'.pte pgt) : CreateEnds vm tf (some ⟨obj, pgt, [], 1⟩) vm'
  /-- The tables below the root are not given back. -/
  | failed {vm' : Vm} {obj : Uint64} {rest : List Uint64} {leaked : Uint64 → Prop}
      (evolves : Evolves (fun _ => False) leaked vm vm') (free : FreeOk vm')
      (pool : vm.mmAllocator = obj :: rest) (mms : vm'.mmAllocator = pushObj obj rest)
      (vmas : vm'.vmaAllocator = vm.vmaAllocator) : CreateEnds vm tf none vm'

/-- A page with an empty root table. -/
theorem Good.root {rest : List Uint64} (hfree : FreeOk vm) (hlist : vm.freelist = p :: rest) :
    Good ((vm.take p rest).zeroTable p) p ∧
      Evolves (fun _ => False) (Owns ((vm.take p rest).zeroTable p) p) vm
        ((vm.take p rest).zeroTable p) ∧
      entryAt ((vm.take p rest).zeroTable p).pte p = (fun _ => 0) ∧
        Pointers ((vm.take p rest).zeroTable p).pte p := by
  set vm' := (vm.take p rest).zeroTable p
  have hmem : p ∈ vm.freelist := by rw [hlist]; exact List.mem_cons_self
  have hmanaged := hfree.managed p hmem
  have hnodup := hfree.nodup
  rw [hlist, List.nodup_cons] at hnodup
  have hstatic : Static vm vm' := ⟨rfl, rfl, rfl, rfl⟩
  have hpte : vm'.pte p = fun _ => 0 := Function.update_self _ _ _
  have hmid (i : Index) : tableAt vm'.pte p (.mid i) = none := by
    rw [tableAt_mid, hpte]
    exact nextTable_zero
  have hlast (i j : Index) : tableAt vm'.pte p (.last i j) = none := by
    rw [tableAt_last, hmid]
    rfl
  have hentries : entryAt vm'.pte p = fun _ => 0 := funext fun v => entryAt_none (hlast _ _)
  have hframes (v : Vpn) : frameAt vm'.pte p v = none := by rw [frameAt, hentries, frameOf_zero]
  have htable (x : Table) (q : Uint64) (hx : tableAt vm'.pte p x = some q) : x = .root ∧
      q = p := by
    cases x with
    | root => exact ⟨rfl, (Option.some.inj hx).symm⟩
    | mid i =>
      rw [hmid] at hx
      exact absurd hx (by simp)
    | last i j =>
      rw [hlast] at hx
      exact absurd hx (by simp)
  have howns (q : Uint64) : Owns vm' p q ↔ q = p := by
    refine ⟨?_, fun hq => .inl ⟨.root, congrArg some hq.symm⟩⟩
    rintro (⟨x, hx⟩ | ⟨v, hv⟩)
    · exact (htable x q hx).2
    · rw [hframes] at hv
      exact absurd hv (by simp)
  have hpointers : Pointers vm'.pte p := by
    intro x u _ hu k c hc
    rw [(htable x u hu).2, hpte, nextTable_zero] at hc
    cases hc
  refine ⟨⟨?_, ?_, ?_, ?_, ?_, hfree.take hlist hstatic rfl, fun q hq => ?_⟩, ?_, hentries,
    hpointers⟩
  · intro x y q hx hy
    rw [(htable x q hx).1, (htable y q hy).1]
  · intro v w q hv
    rw [hframes] at hv
    exact absurd hv (by simp)
  · intro x v q _
    rw [hframes]
    simp
  · intro x u _ hu k hvalid
    rw [(htable x u hu).2, hpte] at hvalid
    exact absurd zero_and_V hvalid
  · intro v
    rw [hentries]
    exact .inl rfl
  · rw [(howns q).1 hq]
    exact ⟨hnodup.1, hstatic.manages hmanaged⟩
  · refine ⟨fun q _ hout => ?_, fun a _ hout => ?_, fun q => ?_, hstatic⟩
    · exact Function.update_of_ne (fun heq : q = p => hout (heq ▸ hmem)) _ _
    · exact memset_page hmanaged.start (fun heq => hout (heq ▸ hmem)) _
    · rw [howns, hlist, List.mem_cons, or_false, or_comm]
      rfl

/-- The label `free_mm`. -/
theorem freeMm_ends {tf : Uint64} {vm₀ : Vm} {rest : List Uint64} (h : Good vm mm.pgt)
    (hevolves : Evolves (fun _ => False) (Owns vm mm.pgt) vm₀ vm)
    (hpool : vm₀.mmAllocator = mm.addr :: rest)
    (hmms : vm.mmAllocator = rest) (hvmas : vm.vmaAllocator = vm₀.vmaAllocator) :
    Ends (mmCreate.freeMm mm) vm (CreateEnds vm₀ tf) := by
  have hroot : Owns vm mm.pgt mm.pgt := .inl ⟨.root, rfl⟩
  obtain ⟨hout, hmanaged⟩ := h.owned _ hroot
  refine .bind_of_eq (kfreepage_eq hmanaged) ?_
  refine .bind (kfreeMm_ends mm.addr (vm.give mm.pgt)) fun _ vm' ⟨hsame, hvmas', hmms'⟩ => .pure ?_
  have hgive : Evolves (Owns vm mm.pgt) (fun p => Owns vm mm.pgt p ∧ p ≠ mm.pgt) vm
      (vm.give mm.pgt) := by
    have hframe := (give_evolves hmanaged).frame fun p => Owns vm mm.pgt p ∧ p ≠ mm.pgt
    refine hframe.congr (fun p => ?_) fun p => (false_or _).symm.to_iff
    by_cases hp : p = mm.pgt
    · subst hp
      simp [hroot]
    · simp [hp]
  refine .failed ((hevolves.trans hgive).trans (hsame.evolves _)) ?_ hpool ?_ ?_
  · exact hsame.freeOk (give_freeOk h.free hmanaged hout)
  · rw [hmms']
    exact congrArg _ hmms
  · rw [hvmas']
    exact hvmas

/-- **`mm_create` makes an address space with the kernel's two pages**, or fails after it ran out
of memory for the tables above them. -/
theorem mmCreate_ends {C : Prop} {tf : Uint64} (hfree : FreeOk vm) (hobj : C ∨ vm.mmAllocator ≠ [])
    (hpage : C ∨ vm.freelist ≠ []) : EndsUnless C (mmCreate tf) vm (CreateEnds vm tf) := by
  cases hpool : vm.mmAllocator with
  | nil =>
    refine .fail (hobj.resolve_right (not_not.2 hpool)) ?_
    show (kallocMm vm).bind _ = none
    rw [kallocMm, kalloc, hpool]
    rfl
  | cons obj pool =>
    have halloc : kallocMm vm = some (obj, { vm with mmAllocator := pool }) := by
      rw [kallocMm, kalloc, hpool]
    have hsame : SameMemory vm { vm with mmAllocator := pool } :=
      ⟨rfl, rfl, rfl, ⟨rfl, rfl, rfl, rfl⟩⟩
    have hmms : ({ vm with mmAllocator := pool } : Vm).mmAllocator = pool := rfl
    have hvmas : ({ vm with mmAllocator := pool } : Vm).vmaAllocator = vm.vmaAllocator := rfl
    refine .bind_of_eq halloc ?_
    generalize ({ vm with mmAllocator := pool } : Vm) = vm₀ at hsame hmms hvmas ⊢
    have hfree := hsame.freeOk hfree
    rw [← hsame.freelist] at hpage
    cases hlist : vm₀.freelist with
    | nil =>
      refine .bind_of_eq (kallocpage_nil hlist) ?_
      exact .ite (fun _ => .fail (hpage.resolve_right (not_not.2 hlist)) rfl) fun hno =>
        absurd rfl hno
    | cons p rest =>
      refine Ends.unless C ?_
      have hmanaged := hfree.managed p (by rw [hlist]; exact List.mem_cons_self)
      refine .bind_of_eq (kallocpage_cons hlist) ?_
      refine .ite (fun hzero => absurd hzero hmanaged.ne_zero) fun _ => .modify_bind (.get_bind ?_)
      obtain ⟨hgood, hevolves, hentries, hpointers⟩ := Good.root hfree hlist
      have hevolves := (hsame.evolves _).trans hevolves
      have hmms₁ : ((vm₀.take p rest).zeroTable p).mmAllocator = pool := hmms
      have hvmas₁ : ((vm₀.take p rest).zeroTable p).vmaAllocator = vm.vmaAllocator := hvmas
      have htramp : ((vm₀.take p rest).zeroTable p).trampoline = vm.trampoline :=
        hsame.static.trampoline
      generalize (vm₀.take p rest).zeroTable p = vm₁
        at hgood hevolves hentries hpointers hmms₁ hvmas₁ htramp ⊢
      rw [htramp]
      have htrampoline := @mmMappageat_ends _ ⟨obj, p, [], 1⟩ _ vm.trampoline _ hgood rfl
        (show IS_USER_VA TRAMPOLINE = true by decide)
        (show KernelFlags (PTE_A ||| PTE_R ||| PTE_X) from ⟨by decide, by decide, by decide⟩)
        (by rw [hentries])
      refine .bind htrampoline fun r vm₂ hr => ?_
      rcases hr with ⟨rfl, hmapped⟩ | ⟨rfl, hgrown⟩
      · refine .ite (fun hneg => absurd hneg (by decide)) fun _ => ?_
        have hne : vpn TRAPFRAME ≠ vpn TRAMPOLINE := by decide
        have htrapframe := @mmMappageat_ends _ ⟨obj, p, [], 1⟩ _ tf _ hmapped.good rfl
          (show IS_USER_VA TRAPFRAME = true by decide)
          (show KernelFlags (PTE_A ||| PTE_D ||| PTE_R ||| PTE_W)
            from ⟨by decide, by decide, by decide⟩)
          (by rw [hmapped.entries, Function.update_of_ne hne, hentries])
        refine .bind htrapframe fun r vm₃ hr => ?_
        rcases hr with ⟨rfl, hmapped'⟩ | ⟨rfl, hgrown⟩
        · refine .ite (fun hno => absurd rfl hno) fun _ => ?_
          refine .pure (.created hmapped'.good ?_ ?_ ?_ ?_
            (hmapped'.pointers (hmapped.pointers hpointers)))
          · exact (hevolves.trans hmapped.evolves).trans hmapped'.evolves
          · rw [hmapped'.entries, hmapped.entries, hentries]
            rfl
          · rw [hpool, hmapped'.pools.mm, hmapped.pools.mm, hmms₁]
          · rw [hmapped'.pools.vma, hmapped.pools.vma, hvmas₁]
        · refine .ite (fun _ => ?_) fun hno => absurd (show -EINVAL ≠ 0 by decide) hno
          refine freeMm_ends hgrown.good ((hevolves.trans hmapped.evolves).trans hgrown.evolves)
            hpool ?_ ?_
          · rw [hgrown.pools.mm, hmapped.pools.mm, hmms₁]
          · rw [hgrown.pools.vma, hmapped.pools.vma, hvmas₁]
      · refine .ite (fun _ => ?_) fun hno => absurd (show -EINVAL < 0 by decide) hno
        refine freeMm_ends hgrown.good (hevolves.trans hgrown.evolves) hpool ?_ ?_
        · rw [hgrown.pools.mm, hmms₁]
        · rw [hgrown.pools.vma, hvmas₁]

theorem kernelEntries_cases (trampoline tf : Uint64) (v : Vpn) :
    kernelEntries trampoline tf v = 0 ∨
    KernelPage v ∧ ∃ pa flags, KernelFlags flags ∧ kernelEntries trampoline tf v = PA2PTE pa |||
      flags ||| PTE_V := by
  rw [kernelEntries, Function.update_apply, Function.update_apply]
  split
  · exact .inr ⟨.inl ‹_›, tf, _, ⟨by decide, by decide, by decide⟩, rfl⟩
  · split
    · exact .inr ⟨.inr ‹_›, trampoline, _, ⟨by decide, by decide, by decide⟩, rfl⟩
    · exact .inl rfl

/-- A new address space is in good order. -/
theorem MmWf.created {obj pgt trampoline tf : Uint64} (good : Good vm pgt)
    (entries : entryAt vm.pte pgt = kernelEntries trampoline tf) : MmWf vm ⟨obj, pgt, [], 1⟩ := by
  have hno {vma : Vma} (h : vma ∈ (⟨obj, pgt, [], 1⟩ : Mm).vma) : False := by simp at h
  refine ⟨⟨good, fun _ h => (hno h).elim, fun v hvalid _ => ?_, fun v p hv => ?_⟩,
    fun _ h => (hno h).elim,
    fun _ h => (hno h).elim, List.Pairwise.nil⟩
  · rw [entries] at hvalid
    rcases kernelEntries_cases trampoline tf v with hzero | ⟨hkernel, -⟩
    · rw [hzero] at hvalid
      exact absurd zero_and_V hvalid
    · exact hkernel
  · rw [frameAt, entries] at hv
    rcases kernelEntries_cases trampoline tf v with hzero | ⟨-, pa, flags, hflags, he⟩
    · rw [hzero] at hv
      exact absurd (hv.symm.trans frameOf_zero) (by simp)
    · rw [he, frameOf_kernel hflags] at hv
      exact absurd hv (by simp)

/-- A new address space with one vma, unless memory runs out. -/
def mmWith (vma : Vma) : VmM (Option Mm) := do
  match ← mmCreate 0x90000000 with
  | none => return none
  | some mm =>
    let (r, mm) ← mmMappages mm vma
    if r < 0 then return none else return some mm

/-- It is in good order. -/
theorem mmWith_wf {vma : Vma} (hfree : FreeOk vm) (hrange : vma.InRange)
    (hflags : UserFlags vma.pteFlags)
    (h : mmWith vma vm = some (some mm, vm')) : MmWf vm' mm ∧ mm.vma = [vma] := by
  obtain ⟨r, vm₁, hcreate, hrun⟩ := bind_eq_some.1 h
  cases (mmCreate_ends (C := True) hfree (.inl trivial) (.inl trivial)).elim hcreate with
  | failed => exact absurd (pure_eq_some.1 hrun).1 (by simp)
  | @created _ obj pgt good evolves entries =>
    have hnew : MmWf vm₁ ⟨obj, pgt, [], 1⟩ := .created good entries
    obtain ⟨⟨r, old⟩, vm₂, hmap, hrun⟩ := bind_eq_some.1 hrun
    cases (mmMappages_ends hnew.toTidy hrange hflags).elim hmap with
    | mapped hbecomes hmaps htakes =>
      obtain ⟨hmm, rfl⟩ := pure_eq_some.1 hrun
      obtain rfl := Option.some.inj hmm
      exact ⟨hnew.cons hrange hflags hbecomes hmaps, rfl⟩
    | overlap => exact absurd (pure_eq_some.1 hrun).1 (by simp)
    | failed neg =>
      simp only [if_pos neg] at hrun
      exact absurd (pure_eq_some.1 hrun).1 (by simp)

end SignalOS
