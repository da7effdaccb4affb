import SignalOS.Vm.AddressSpace

/-!
# The loops of `mm_remap`

`mm_remap` goes over the pages of the old and the new range up to three times.

* `reflag` — an entry with other permissions.
* `Edits`, `PartEdits` — what a loop over pages does to their entries; `GivesBack` — the
  frames it gives back.
* `mmRemapCreate_ends`, `mmRemapRemove_ends`, `mmRemapRestore_ends` — **the three
  loops**.
-/

namespace SignalOS

open Partial

variable {vm vm' vm₁ : Vm} {mm : Mm} {vma : Vma}

/-! ## Permissions -/

/-- An entry with these permissions instead of its own. -/
def reflag (flags e : Uint64) : Uint64 := e &&& ~~~PTE_RWX ||| flags

theorem keepBits_shift (e : Uint64) : (e &&& ~~~PTE_RWX) >>> 10 = e >>> 10 := by
  refine BitVec.eq_of_getLsbD_eq fun i hi => ?_
  rw [BitVec.getLsbD_ushiftRight, BitVec.getLsbD_ushiftRight, BitVec.getLsbD_and,
    BitVec.getLsbD_not,
    isFlags_RWX.getLsbD (by omega)]
  by_cases hlt : 10 + i < 64
  · simp [hlt]
  · simp [BitVec.getLsbD_of_ge _ _ (Nat.le_of_not_lt hlt)]

theorem PTE2PA_reflag {flags e : Uint64} (hflags : IsFlags flags) :
    PTE2PA (reflag flags e) = PTE2PA e := by
  rw [reflag, PTE2PA_or hflags, PTE2PA, keepBits_shift, PTE2PA]

/-- A bit outside the permissions that is set stays set. -/
theorem reflag_and_ne_zero {flags e m : Uint64} (hm : ~~~PTE_RWX &&& m = m) (he : e &&& m ≠ 0) :
    reflag flags e &&& m ≠ 0 := by
  rw [reflag, BitVec.and_or_distrib_right, BitVec.and_assoc, hm]
  exact fun hzero => he (BitVec.or_eq_zero_iff.1 hzero).1

theorem reflag_leaf {flags e : Uint64} (hflags : UserFlags flags) (hvalid : e &&& PTE_V ≠ 0) :
    Leaf (reflag flags e) := by
  refine ⟨reflag_and_ne_zero (by decide) hvalid, ?_⟩
  rw [reflag, BitVec.and_or_distrib_right]
  exact fun hzero => hflags.rwx (BitVec.or_eq_zero_iff.1 hzero).2

/-- A user page keeps its frame. -/
theorem frameOf_reflag {flags e : Uint64} (hflags : IsFlags flags) (hvalid : e &&& PTE_V ≠ 0)
    (huser : e &&& PTE_U ≠ 0) : frameOf (reflag flags e) = frameOf e := by
  rw [frameOf_of_user hvalid huser, frameOf_of_user (reflag_and_ne_zero (by decide) hvalid)
    (reflag_and_ne_zero (by decide) huser), PTE2PA_reflag hflags]

/-- The last permissions count, where the other flags agree. -/
theorem reflag_reflag {flags flags' e : Uint64}
    (h : flags' &&& ~~~PTE_RWX = flags &&& ~~~PTE_RWX) :
    reflag flags (reflag flags' e) = reflag flags e := by
  have hself : flags &&& ~~~PTE_RWX ||| flags = flags := by
    refine BitVec.eq_of_getLsbD_eq fun i hi => ?_
    rw [BitVec.getLsbD_or, BitVec.getLsbD_and]
    cases flags.getLsbD i <;> simp
  have hidem : e &&& ~~~PTE_RWX &&& ~~~PTE_RWX = e &&& ~~~PTE_RWX := by
    rw [BitVec.and_assoc, BitVec.and_self]
  rw [reflag, reflag, reflag, BitVec.and_or_distrib_right, h, hidem, BitVec.or_assoc, hself]

/-- An entry that has the flags already. -/
theorem reflag_self {flags e : Uint64} (hflags : e &&& flags = flags)
    (hrwx : e &&& PTE_RWX = flags &&& PTE_RWX) :
    reflag flags e = e := by
  refine BitVec.eq_of_getLsbD_eq fun i hi => ?_
  have hbit := congrArg (BitVec.getLsbD · i) hflags
  have hperm := congrArg (BitVec.getLsbD · i) hrwx
  simp only [BitVec.getLsbD_and] at hbit hperm
  rw [reflag, BitVec.getLsbD_or, BitVec.getLsbD_and, BitVec.getLsbD_not]
  revert hbit hperm
  cases e.getLsbD i <;> cases flags.getLsbD i <;> cases PTE_RWX.getLsbD i <;> simp [hi]

theorem and_U (x : Uint64) : x &&& PTE_U = 0 ∨ x &&& PTE_U = PTE_U := by
  have htwo : PTE_U = BitVec.twoPow 64 4 := by decide
  rw [htwo, BitVec.and_twoPow]
  split
  · exact .inr rfl
  · exact .inl rfl

/-- A user page has the new permissions. -/
theorem reflag_permits {flags e : Uint64} (hflags : UserFlags flags) (hvalid : e &&& PTE_V ≠ 0) :
    Permits flags (reflag flags e) := by
  refine ⟨reflag_and_ne_zero (by decide) hvalid, ?_⟩
  have hmask : ~~~PTE_RWX &&& PERM = PTE_U := by decide
  have hU : flags &&& PTE_U = PTE_U := (and_U flags).resolve_left hflags.user
  have hself : PTE_U ||| flags &&& PERM = flags &&& PERM := by
    have hperm : PERM = PTE_RWX ||| PTE_U := rfl
    rw [hperm, BitVec.and_or_distrib_left, hU, BitVec.or_comm, BitVec.or_assoc, BitVec.or_self]
  rw [reflag, BitVec.and_or_distrib_right, BitVec.and_assoc, hmask]
  rcases and_U e with he | he
  · rw [he]
    exact BitVec.zero_or
  · rw [he, hself]

/-! ## Loops over pages -/

/-- The entries of all pages of a list were edited. -/
structure Edits (R : Uint64 → Uint64 → Uint64 → Prop) (pages : List Uint64) (E E' : Vpn → Uint64) :
    Prop where
  page : ∀ va ∈ pages, R va (E (vpn va)) (E' (vpn va))
  other : ∀ v, ¬ Covers pages v → E' v = E v

/-- The entries of some of them were. -/
def PartEdits (R : Uint64 → Uint64 → Uint64 → Prop) (pages : List Uint64) (E E' : Vpn → Uint64) :
    Prop :=
  ∀ v, E' v = E v ∨ ∃ va ∈ pages, vpn va = v ∧ R va (E v) (E' v)

section Edits

variable {R S : Uint64 → Uint64 → Uint64 → Prop} {pages rest : List Uint64} {va e : Uint64}
  {E E' E'' : Vpn → Uint64}

theorem Edits.nil (R : Uint64 → Uint64 → Uint64 → Prop) (E : Vpn → Uint64) : Edits R [] E E :=
  ⟨fun _ h => absurd h (by simp), fun _ _ => rfl⟩

theorem PartEdits.refl (R : Uint64 → Uint64 → Uint64 → Prop) (pages : List Uint64)
    (E : Vpn → Uint64) :
    PartEdits R pages E E := fun _ => .inl rfl

/-- Different pages of a list have different numbers. -/
theorem vpn_ne_of_mem (huser : UserPages (va :: rest)) (hnodup : (va :: rest).Nodup) {a : Uint64}
    (ha : a ∈ rest) :
    vpn a ≠ vpn va := by
  intro heq
  obtain ⟨huva, hpva⟩ := huser va List.mem_cons_self
  obtain ⟨hua, hpa⟩ := huser a (List.mem_cons_of_mem _ ha)
  obtain rfl := vpn_inj hua huva hpa hpva heq
  exact (List.nodup_cons.1 hnodup).1 ha

/-- The first page is edited, then the others. -/
theorem Edits.cons (h : Edits R rest (Function.update E (vpn va) e) E')
    (huser : UserPages (va :: rest))
    (hnodup : (va :: rest).Nodup) (he : R va (E (vpn va)) e) : Edits R (va :: rest) E E' := by
  have hnew : ¬ Covers rest (vpn va) := fun ⟨a, ha, hav⟩ => vpn_ne_of_mem huser hnodup ha hav
  constructor
  case page =>
    intro a ha
    rcases List.mem_cons.1 ha with rfl | ha
    · rw [h.other _ hnew, Function.update_self]
      exact he
    · have hedit := h.page a ha
      rw [Function.update_of_ne (vpn_ne_of_mem huser hnodup ha)] at hedit
      exact hedit
  case other =>
    intro v hv
    rw [covers_cons, not_or] at hv
    rw [h.other v hv.2, Function.update_of_ne fun heq => hv.1 heq.symm]

theorem PartEdits.cons (h : PartEdits R rest (Function.update E (vpn va) e) E')
    (huser : UserPages (va :: rest))
    (hnodup : (va :: rest).Nodup) (he : R va (E (vpn va)) e) : PartEdits R (va :: rest) E E' := by
  intro v
  by_cases heq : v = vpn va
  · subst heq
    rcases h (vpn va) with hsame | ⟨a, ha, hav, -⟩
    · rw [Function.update_self] at hsame
      exact .inr ⟨va, List.mem_cons_self, rfl, hsame ▸ he⟩
    · exact absurd hav (vpn_ne_of_mem huser hnodup ha)
  · have hv := h v
    rw [Function.update_of_ne heq] at hv
    exact hv.imp_right fun ⟨a, ha, hav, hedit⟩ => ⟨a, List.mem_cons_of_mem _ ha, hav, hedit⟩

end Edits

/-! ## The first loop -/

/-- What the first loop of `mm_remap` makes of the entry of a page. -/
inductive Creates (start stop flags va : Uint64) : Uint64 → Uint64 → Prop where
  | skipped {e : Uint64} (h : va < start ∨ va ≥ stop) : Creates start stop flags va e e
  | created {e : Uint64} (h : ¬ (va < start ∨ va ≥ stop)) (hmap : IsMapping flags e) :
    Creates start stop flags va 0 e
  | changed {e : Uint64} (h : ¬ (va < start ∨ va ≥ stop)) (hvalid : e &&& PTE_V ≠ 0) :
      Creates start stop flags va e (reflag flags e)

/-- How the first loop may end: the result says whether all pages were edited. -/
def CreateLoop (mm : Mm) (start stop flags : Uint64) (pages : List Uint64) (vm : Vm) (r : Bool)
    (vm' : Vm) : Prop :=
  ∃ E', Becomes mm.pgt E' vm vm' ∧
    ((r = true ∧ Edits (Creates start stop flags) pages (entryAt vm.pte mm.pgt) E') ∨
      (r = false ∧ PartEdits (Creates start stop flags) pages (entryAt vm.pte mm.pgt) E'))

section Create

variable {start stop flags va e : Uint64} {pages rest : List Uint64} {r : Bool}

theorem CreateLoop.failed (hgrown : Grown mm.pgt vm vm') :
    CreateLoop mm start stop flags pages vm false vm' :=
  ⟨_, hgrown, .inr ⟨rfl, PartEdits.refl _ _ _⟩⟩

/-- The first page is done, then the others. -/
theorem CreateLoop.cons (h : CreateLoop mm start stop flags rest vm₁ r vm')
    (huser : UserPages (va :: rest))
    (hnodup : (va :: rest).Nodup)
    (hbecomes : Becomes mm.pgt (Function.update (entryAt vm.pte mm.pgt) (vpn va) e) vm vm₁)
    (he : Creates start stop flags va (entryAt vm.pte mm.pgt (vpn va)) e) :
    CreateLoop mm start stop flags (va :: rest) vm r vm' := by
  obtain ⟨E', hrest, hE'⟩ := h
  rw [hbecomes.entries] at hE'
  refine ⟨E', Becomes.trans hbecomes hrest, ?_⟩
  rcases hE' with ⟨hr, hedits⟩ | ⟨hr, hpart⟩
  · exact .inl ⟨hr, hedits.cons huser hnodup he⟩
  · exact .inr ⟨hr, hpart.cons huser hnodup he⟩

/-- **The first loop of `mm_remap`** maps the pages of the new range that are not mapped and
changes the permissions of the others. -/
theorem mmRemapCreate_ends (h : Good vm mm.pgt) (huser : UserPages pages) (hnodup : pages.Nodup)
    (hflags : UserFlags flags) (hframe : ∀ va ∈ pages, ¬ (va < start ∨ va ≥ stop) →
      entryAt vm.pte mm.pgt (vpn va) &&& PTE_V ≠ 0 → entryAt vm.pte mm.pgt (vpn va) &&&
        PTE_U ≠ 0) :
    Ends (mmRemapCreate mm start stop flags pages) vm
      (CreateLoop mm start stop flags pages vm) := by
  induction pages generalizing vm with
  | nil => exact .pure ⟨_, Grown.refl h, .inl ⟨rfl, Edits.nil _ _⟩⟩
  | cons va rest ih =>
    obtain ⟨hva, -⟩ := huser va List.mem_cons_self
    -- the loop goes on with the entry `e` at the page
    have hnext {e : Uint64} {vm₁ : Vm}
        (hbecomes : Becomes mm.pgt (Function.update (entryAt vm.pte mm.pgt) (vpn va) e) vm vm₁)
        (he : Creates start stop flags va (entryAt vm.pte mm.pgt (vpn va)) e) :
        Ends (mmRemapCreate mm start stop flags rest) vm₁ (CreateLoop mm start stop flags
          (va :: rest) vm) := by
      refine (ih hbecomes.good (fun a ha => huser a (List.mem_cons_of_mem _ ha))
        (List.nodup_cons.1 hnodup).2
        fun a ha => ?_).mono fun r vm' hloop => hloop.cons huser hnodup hbecomes he
      rw [hbecomes.entries, Function.update_of_ne (vpn_ne_of_mem huser hnodup ha)]
      exact hframe a (List.mem_cons_of_mem _ ha)
    refine .ite (fun hout => ?_) fun hin => ?_
    · refine hnext (e := entryAt vm.pte mm.pgt (vpn va)) ?_ (.skipped hout)
      rw [Function.update_eq_self]
      exact Grown.refl h
    refine .bind (walk_ends h hva) fun r vm₁ ⟨hgrown, hr⟩ => ?_
    rcases hr with rfl | ⟨t, rfl, ht⟩
    · exact .pure (.failed hgrown)
    refine .bind_of_eq (a := entryAt vm₁.pte mm.pgt (vpn va)) (t := vm₁)
      (by rw [entryAt_eq ht]; rfl) ?_
    rw [hgrown.entries]
    refine .ite (fun hvalid => ?_) fun hinvalid => ?_
    · -- the page is mapped already
      have hU := hframe va List.mem_cons_self hin hvalid
      have hset := hgrown.good.setFlags (e := reflag flags (entryAt vm.pte mm.pgt (vpn va))) ht
        (by rw [frameAt, hgrown.entries, frameOf_reflag hflags.isFlags hvalid hU])
          (reflag_leaf hflags hvalid)
      rw [hgrown.entries] at hset
      exact .modify_bind (hnext (Becomes.trans hgrown hset) (.changed hin hvalid))
    · have hzero := h.entry_zero (not_not.1 hinvalid)
      cases hfree : vm₁.freelist with
      | nil =>
        refine .bind_of_eq (kallocpage_nil hfree) (.ite (fun _ => ?_) fun hne => absurd rfl hne)
        exact .pure (.failed hgrown)
      | cons p free =>
        have hmanaged := (hgrown.good.fresh hfree).2.2.1
        refine .bind_of_eq (kallocpage_cons hfree)
          (.ite (fun hp => absurd hp hmanaged.ne_zero) fun _ => ?_)
        have hnone : frameAt vm₁.pte mm.pgt (vpn va) = none := by
          rw [frameAt, hgrown.entries, hzero, frameOf_zero]
        have hmap := hgrown.good.mapNew ht hfree hnone hflags
        rw [hgrown.entries] at hmap
        refine .modify_bind (hnext (Becomes.trans hgrown hmap) ?_)
        rw [hzero]
        exact .created hin ⟨p, hmanaged.start, rfl⟩

/-- It only takes pages. -/
theorem mmRemapCreate_onlyTakes (mm : Mm) (start stop flags : Uint64) (pages : List Uint64) :
    Keeps OnlyTakes (mmRemapCreate mm start stop flags pages) := by
  induction pages with
  | nil => exact pure_onlyTakes _
  | cons va rest ih =>
    rw [mmRemapCreate]
    split
    · exact ih
    refine .bind OnlyTakes.trans (walk_onlyTakes mm va true) fun r => ?_
    cases r with
    | none => exact pure_onlyTakes _
    | some slot =>
      refine .bind OnlyTakes.trans (.bind OnlyTakes.trans get_onlyTakes fun vm => pure_onlyTakes _)
        fun e => ?_
      split
      · exact .bind OnlyTakes.trans (modify_onlyTakes fun vm => ⟨rfl, rfl⟩) fun _ => ih
      · refine .bind OnlyTakes.trans kallocpage_onlyTakes fun pa => ?_
        split
        · exact pure_onlyTakes _
        · exact .bind OnlyTakes.trans (modify_onlyTakes fun vm => ⟨rfl, rfl⟩) fun _ => ih

end Create

/-! ## The loops that give pages back -/

/-- What an operation makes of an address space that takes no page. -/
structure GivesBack (pgt : Uint64) (E' : Vpn → Uint64) (vm vm' : Vm) :
    Prop extends Becomes pgt E' vm vm' where
  stays : ∀ p ∈ vm.freelist, p ∈ vm'.freelist
  byte : ∀ a, PGROUNDDOWN a ∉ vm'.freelist → vm'.byte a = vm.byte a
  /-- A page keeps its frame, or the frame is free. -/
  frames : ∀ v, frameOf (E' v) = frameAt vm.pte pgt v ∨
    frameOf (E' v) = none ∧ ∀ p, frameAt vm.pte pgt v = some p → p ∈ vm'.freelist

/-- The entries of all pages of a list were edited on the way. -/
def GivesLoop (R : Uint64 → Uint64 → Uint64 → Prop) (pgt : Uint64) (pages : List Uint64)
    (vm vm' : Vm) : Prop :=
  ∃ E', GivesBack pgt E' vm vm' ∧ Edits R pages (entryAt vm.pte pgt) E'

section Gives

variable {R : Uint64 → Uint64 → Uint64 → Prop} {pgt t start stop va e : Uint64} {v : Vpn}
  {E₁ E' : Vpn → Uint64}
  {pages rest : List Uint64}

theorem GivesBack.refl (h : Good vm pgt) : GivesBack pgt (entryAt vm.pte pgt) vm vm :=
  ⟨Grown.refl h, fun _ hp => hp, fun _ _ => rfl, fun _ => .inl rfl⟩

theorem GivesBack.trans (h : GivesBack pgt E₁ vm vm₁) (h' : GivesBack pgt E' vm₁ vm') :
    GivesBack pgt E' vm vm' := by
  refine ⟨h.toBecomes.trans h'.toBecomes, fun p hp => h'.stays p (h.stays p hp), fun a ha => ?_,
    fun v => ?_⟩
  · rw [h'.byte a ha, h.byte a fun hin => ha (h'.stays _ hin)]
  · have hentry : frameAt vm₁.pte pgt v = frameOf (E₁ v) := by rw [frameAt, h.entries]
    rcases h.frames v with hsame | ⟨hnone, hfreed⟩
    · rw [← hsame, ← hentry]
      exact h'.frames v
    · refine .inr ⟨?_, fun p hp => h'.stays p (hfreed p hp)⟩
      rcases h'.frames v with hsame | ⟨hnone', -⟩
      · rw [hsame, hentry, hnone]
      · exact hnone'

theorem GivesLoop.nil (h : Good vm pgt) : GivesLoop R pgt [] vm vm :=
  ⟨_, GivesBack.refl h, Edits.nil _ _⟩

/-- The first page is done, then the others. -/
theorem GivesLoop.cons (h : GivesLoop R pgt rest vm₁ vm') (huser : UserPages (va :: rest))
    (hnodup : (va :: rest).Nodup)
    (hgives : GivesBack pgt (Function.update (entryAt vm.pte pgt) (vpn va) e) vm vm₁)
    (he : R va (entryAt vm.pte pgt (vpn va)) e) : GivesLoop R pgt (va :: rest) vm vm' := by
  obtain ⟨E', hrest, hedits⟩ := h
  rw [hgives.entries] at hedits
  exact ⟨E', hgives.trans hrest, hedits.cons huser hnodup he⟩

/-- A frame is given back. -/
theorem unmap_gives (h : Good vm mm.pgt) (ht : tableAt vm.pte mm.pgt (.last v.l2 v.l1) = some t)
    (hvalid : entryAt vm.pte mm.pgt v &&& PTE_V ≠ 0)
    (huser : entryAt vm.pte mm.pgt v &&& PTE_U ≠ 0) :
    Ends (do kfreepage (PTE2PA (entryAt vm.pte mm.pgt v)); storePte (t, v.l0.word) 0) vm
      fun _ vm' =>
      GivesBack mm.pgt (Function.update (entryAt vm.pte mm.pgt) v 0) vm vm' := by
  have hframe : frameAt vm.pte mm.pgt v = some (PTE2PA (entryAt vm.pte mm.pgt v)) :=
    frameOf_of_user hvalid huser
  have hmanaged := (h.owned _ (.inr ⟨v, hframe⟩)).2
  refine .bind_of_eq (kfreepage_eq hmanaged) (.of_eq rfl ⟨h.unmap ht hframe, ?_, ?_, fun w => ?_⟩)
  · exact fun p hp => List.mem_cons_of_mem _ hp
  · exact fun a ha => memset_page hmanaged.start (fun heq => ha (heq ▸ List.mem_cons_self)) _
  · by_cases hw : w = v
    · subst hw
      rw [Function.update_self, hframe]
      refine .inr ⟨frameOf_zero, fun p hp => ?_⟩
      obtain rfl := Option.some.inj hp
      exact List.mem_cons_self
    · rw [Function.update_of_ne hw]
      exact .inl rfl

/-- The permissions of a user page are changed. -/
theorem reflag_gives {flags : Uint64} (h : Good vm pgt)
    (ht : tableAt vm.pte pgt (.last v.l2 v.l1) = some t)
    (hflags : UserFlags flags) (hvalid : entryAt vm.pte pgt v &&& PTE_V ≠ 0)
    (huser : entryAt vm.pte pgt v &&& PTE_U ≠ 0) :
    GivesBack pgt (Function.update (entryAt vm.pte pgt) v (reflag flags (entryAt vm.pte pgt v))) vm
      (vm.setPte t v.l0.word (reflag flags (entryAt vm.pte pgt v))) := by
  have hframe := frameOf_reflag hflags.isFlags hvalid huser
  refine ⟨h.setFlags ht hframe (reflag_leaf hflags hvalid), fun p hp => hp, fun _ _ => rfl,
    fun w => ?_⟩
  by_cases hw : w = v
  · subst hw
    rw [Function.update_self]
    exact .inl hframe
  · rw [Function.update_of_ne hw]
    exact .inl rfl

/-- What the second loop of `mm_remap` makes of the entry of a page. -/
def Removes (start stop va e e' : Uint64) : Prop := e' = if va < start ∨ va ≥ stop then 0 else e

/-- **The second loop of `mm_remap`** gives the pages outside the new range back. -/
theorem mmRemapRemove_ends (h : Good vm mm.pgt) (huser : UserPages pages) (hnodup : pages.Nodup)
    (hmapped : ∀ va ∈ pages, va < start ∨ va ≥ stop →
      entryAt vm.pte mm.pgt (vpn va) &&& PTE_V ≠ 0 ∧ entryAt vm.pte mm.pgt (vpn va) &&&
        PTE_U ≠ 0) :
    Ends (mmRemapRemove mm start stop pages) vm fun r vm' =>
      r = true ∧ GivesLoop (Removes start stop) mm.pgt pages vm vm' := by
  induction pages generalizing vm with
  | nil => exact .pure ⟨rfl, .nil h⟩
  | cons va rest ih =>
    obtain ⟨hva, -⟩ := huser va List.mem_cons_self
    -- the loop goes on with the entry `e` at the page
    have hnext {e : Uint64} {vm₁ : Vm}
        (hgives : GivesBack mm.pgt (Function.update (entryAt vm.pte mm.pgt) (vpn va) e) vm vm₁)
        (he : Removes start stop va (entryAt vm.pte mm.pgt (vpn va)) e) :
        Ends (mmRemapRemove mm start stop rest) vm₁ fun r vm' =>
          r = true ∧ GivesLoop (Removes start stop) mm.pgt (va :: rest) vm vm' := by
      refine (ih hgives.good (fun a ha => huser a (List.mem_cons_of_mem _ ha))
        (List.nodup_cons.1 hnodup).2
        fun a ha => ?_).mono fun r vm' ⟨hr, hloop⟩ => ⟨hr, hloop.cons huser hnodup hgives he⟩
      rw [hgives.entries, Function.update_of_ne (vpn_ne_of_mem huser hnodup ha)]
      exact hmapped a (List.mem_cons_of_mem _ ha)
    refine .ite (fun hout => ?_) fun hin => ?_
    · obtain ⟨hvalid, hU⟩ := hmapped va List.mem_cons_self hout
      obtain ⟨t, ht⟩ := exists_table hvalid
      refine .bind_of_eq (walk_find hva vm mm) ?_
      rw [ht]
      refine .bind_of_eq (a := entryAt vm.pte mm.pgt (vpn va)) (t := vm)
        (by rw [entryAt_eq ht]; rfl) ?_
      refine .ite (fun _ => ?_) fun hinvalid => absurd hvalid hinvalid
      obtain ⟨_, vm₁, hrun, hgives⟩ := unmap_gives h ht hvalid hU
      obtain ⟨_, vm₀, hfree, hstore⟩ := bind_eq_some.1 hrun
      exact .bind_of_eq hfree (.bind_of_eq hstore (hnext hgives (if_pos hout).symm))
    · refine hnext (e := entryAt vm.pte mm.pgt (vpn va)) ?_ (if_neg hin).symm
      rw [Function.update_eq_self]
      exact GivesBack.refl h

/-- What the loop after the label `err` of `mm_remap` makes of the entry of a page. -/
def Restores (vma : Vma) (va e e' : Uint64) : Prop :=
  e' = if va < vma.vmStart ∨ va ≥ vma.vmEnd then 0 else reflag vma.pteFlags e

/-- One turn of it. -/
theorem mmRemapRestore_turn (h : Good vm mm.pgt) (hva : IS_USER_VA va = true)
    (hflags : UserFlags vma.pteFlags)
    (hframe : entryAt vm.pte mm.pgt (vpn va) &&& PTE_V ≠ 0 →
      entryAt vm.pte mm.pgt (vpn va) &&& PTE_U ≠ 0)
    (hmapped : ¬ (va < vma.vmStart ∨ va ≥ vma.vmEnd) →
      entryAt vm.pte mm.pgt (vpn va) &&& PTE_V ≠ 0) :
    Ends (mmRemapRestore mm vma va) vm fun _ vm' => ∃ e,
      Restores vma va (entryAt vm.pte mm.pgt (vpn va)) e ∧
      GivesBack mm.pgt (Function.update (entryAt vm.pte mm.pgt) (vpn va) e) vm vm' := by
  -- a page that is not mapped and need not be
  have hskip (hout : va < vma.vmStart ∨ va ≥ vma.vmEnd) (hzero : entryAt vm.pte mm.pgt
    (vpn va) = 0) :
      ∃ e, Restores vma va (entryAt vm.pte mm.pgt (vpn va)) e ∧
        GivesBack mm.pgt (Function.update (entryAt vm.pte mm.pgt) (vpn va) e) vm vm := by
    refine ⟨0, (if_pos hout).symm, ?_⟩
    rw [← hzero, Function.update_eq_self]
    exact GivesBack.refl h
  refine .bind_of_eq (walk_find hva vm mm) ?_
  cases ht : tableAt vm.pte mm.pgt (.last (vpn va).l2 (vpn va).l1) with
  | none =>
    have hzero := entryAt_none ht
    have hout : va < vma.vmStart ∨ va ≥ vma.vmEnd := by
      by_contra hin
      refine hmapped hin ?_
      rw [hzero]
      exact zero_and_V
    refine .of_eq (kassert_true ?_) (hskip hout hzero)
    simpa only [Bool.or_eq_true, decide_eq_true_eq] using hout
  | some t =>
    refine .bind_of_eq (a := entryAt vm.pte mm.pgt (vpn va)) (t := vm)
      (by rw [entryAt_eq ht]; rfl) ?_
    refine .ite (fun hout => .ite (fun hvalid => ?_) fun hinvalid => ?_) fun hin => ?_
    · refine (unmap_gives h ht hvalid (hframe hvalid)).mono fun _ vm' hgives =>
        ⟨0, (if_pos hout).symm, hgives⟩
    · exact .pure (hskip hout (h.entry_zero (not_not.1 hinvalid)))
    · have hvalid := hmapped hin
      refine .bind_of_eq (kassert_true (bne_iff_ne.2 hvalid))
        (.of_eq rfl ⟨_, (if_neg hin).symm, ?_⟩)
      exact reflag_gives h ht hflags hvalid (hframe hvalid)

/-- **The loop after the label `err`** gives the pages outside the vma back, and the pages of the
vma their permissions. -/
theorem mmRemapRestore_ends (h : Good vm mm.pgt) (huser : UserPages pages) (hnodup : pages.Nodup)
    (hflags : UserFlags vma.pteFlags)
    (hframe : ∀ va ∈ pages, entryAt vm.pte mm.pgt (vpn va) &&& PTE_V ≠ 0 →
      entryAt vm.pte mm.pgt (vpn va) &&& PTE_U ≠ 0)
    (hmapped : ∀ va ∈ pages, ¬ (va < vma.vmStart ∨ va ≥ vma.vmEnd) →
      entryAt vm.pte mm.pgt (vpn va) &&& PTE_V ≠ 0) :
    Ends (pages.forM (mmRemapRestore mm vma)) vm fun _ vm' =>
      GivesLoop (Restores vma) mm.pgt pages vm vm' := by
  induction pages generalizing vm with
  | nil => exact .pure (.nil h)
  | cons va rest ih =>
    obtain ⟨hva, -⟩ := huser va List.mem_cons_self
    refine .bind (mmRemapRestore_turn h hva hflags (hframe va List.mem_cons_self)
      (hmapped va List.mem_cons_self))
      fun _ vm₁ ⟨e, he, hgives⟩ => ?_
    have hrest {a : Uint64} (ha : a ∈ rest) :
        entryAt vm₁.pte mm.pgt (vpn a) = entryAt vm.pte mm.pgt (vpn a) := by
      rw [hgives.entries, Function.update_of_ne (vpn_ne_of_mem huser hnodup ha)]
    refine (ih hgives.good (fun a ha => huser a (List.mem_cons_of_mem _ ha))
      (List.nodup_cons.1 hnodup).2
      (fun a ha => ?_) fun a ha => ?_).mono fun _ vm' hloop => hloop.cons huser hnodup hgives he
    · rw [hrest ha]
      exact hframe a (List.mem_cons_of_mem _ ha)
    · rw [hrest ha]
      exact hmapped a (List.mem_cons_of_mem _ ha)

end Gives

end SignalOS
