import SignalOS.User.Free

/-!
# Taking a block

`malloc` walks around the ring for a block that is large enough, takes it or cuts its
tail off, and asks the kernel for more memory when it has been all the way round.

* `Rep.carve` — what becomes of the block that is found.
* `Rep.mallocLoop` — where the walk ends.
* `Rep.morecore` — the new memory becomes part of a free block.
* `Rep.malloc` — **the specification of `malloc`**.
-/

namespace SignalOS

open Links

variable {start : Nat} {h : UHeap} {pre post blocks : List Block} {b c : Block} {prev p : Uint64}
  {nunits : BitVec 32}
  {m' : Uint64 → Byte}

/-- A node on the ring and a different one are apart. -/
theorem Rep.nodes_apart (hr : Rep start h blocks) {a a' : Uint64} (ha : a ∈ h.base :: frees blocks)
    (ha' : a' ∈ h.base :: frees blocks) (hne : a ≠ a') : a.toNat + 16 ≤ a'.toNat ∨
    a'.toNat + 16 ≤ a.toNat := by
  have hsymm : Std.Symm fun a a' : Uint64 => a.toNat + 16 ≤ a'.toNat ∨ a'.toNat + 16 ≤ a.toNat :=
    ⟨fun _ _ => Or.symm⟩
  have hboth : (h.base :: frees blocks).Pairwise
      fun a a' => a.toNat + 16 ≤ a'.toNat ∨ a'.toNat + 16 ≤ a.toNat := hr.nodes_sorted.imp .inl
  exact hboth.forall ha ha' hne

/-- No free block begins at the address of `base`. -/
theorem Rep.ne_base (hr : Rep start h blocks) (hb : b ∈ blocks) : b.start ≠ h.base := by
  intro heq
  have := hr.bounds hb
  rw [heq] at this
  omega

/-- Taking a free block can only widen the gaps between free blocks. -/
theorem Gaps.use (hg : Gaps (pre ++ c :: post)) (hb : b.used = true) :
    Gaps (pre ++ b :: post) := by
  have hpost : Gaps post := hg.right_of_append.tail
  refine hg.left_of_append.append (hpost.cons_used hb) fun _ _ y hy => .inr ?_
  obtain rfl : b = y := by simpa using hy
  exact hb

/-- The whole block is taken. -/
theorem Rep.takeWhole (hr : Rep start h (pre ++ c :: post)) (hc : c.used = false)
    (hprev : prev ∈ h.base :: frees (pre ++ c :: post)) (hnext : sPtr h.mem prev = c.start) :
    Rep start { h with mem := setPtr h.mem prev (sPtr h.mem c.start), freep := prev }
        (pre ++ { c with used := true } :: post) ∧
      Differ prev.toNat (prev.toNat + 16) h.mem (setPtr h.mem prev (sPtr h.mem c.start)) := by
  have hcmem : c ∈ pre ++ c :: post := List.mem_append_right _ List.mem_cons_self
  have hnodes : h.base :: frees (pre ++ c :: post) = (h.base :: frees pre) ++ c.start ::
      frees post := by
    rw [frees_append, frees_cons_free hc, List.cons_append]
  have hnodes' : h.base :: frees (pre ++ { c with used := true } :: post) =
      (h.base :: frees pre) ++ frees post := by
    rw [frees_split rfl, List.cons_append]
  have hring := hr.ring
  have hnodup := hr.nodes_nodup
  have hprev' := hprev
  rw [hnodes] at hring hnodup hprev'
  obtain ⟨zs, hzs⟩ := hring.pred_eq hnodup (hr.ne_base hcmem) hprev' hnext
  have hfits := hr.node_fits hprev
  have hw : Wrote h.mem (setPtr h.mem prev (sPtr h.mem c.start)) prev (sPtr h.mem c.start)
      (sSize h.mem prev) :=
    Wrote.setPtr (by omega)
  set m' := setPtr h.mem prev (sPtr h.mem c.start) with hm'
  have hsize {a : Uint64} (ha : a = prev ∨ prev.toNat + 16 ≤ a.toNat ∨ a.toNat + 16 ≤ prev.toNat)
      (hfit : a.toNat + 16 ≤ 2 ^ 64) : sSize m' a = sSize h.mem a := by
    rcases ha with rfl | hapart
    · exact hw.size
    · exact (hw.other hfit hapart).2
  have hptr {a : Uint64} (ha : a ∈ h.base :: frees (pre ++ c :: post)) (hne : a ≠ prev) :
      sPtr m' a = sPtr h.mem a := by
    have := hr.node_fits ha
    exact (hw.other (by omega) (hr.nodes_apart hprev ha hne.symm)).1
  have hblock {b : Block} (hb : b ∈ pre ++ c :: post) : sSize m' b.start = b.size := by
    have hbounds := hr.bounds hb
    have htop := hr.top
    have hapart := hr.tiles.node_apart hr.base_below hprev hb
    refine (hsize ?_ (by omega)).trans (hr.sizes b hb)
    rcases hapart with ⟨heq, -⟩ | hapart
    · exact .inl heq.symm
    · exact .inr (by omega)
  obtain ⟨hfront, -, hapart⟩ := List.nodup_append.1 hnodup
  rw [hzs] at hfront hapart
  refine ⟨⟨⟨hr.base_pos, hr.base_below, hr.units, hr.top⟩, ?_, fun b hb => ?_, ?_, ?_, ?_,
    hr.gaps.use rfl⟩, hw.rest⟩
  · obtain ⟨mid, htpre, hstart, hpos, htpost⟩ := tiles_append.1 hr.tiles
    exact tiles_append.2 ⟨mid, htpre, hstart, hpos, htpost⟩
  · rcases List.mem_append.1 hb with hbpre | hb
    · exact hblock (List.mem_append_left _ hbpre)
    · rcases List.mem_cons.1 hb with rfl | hbpost
      · exact show sSize m' c.start = c.size from hblock hcmem
      · exact hblock (List.mem_append_right _ (List.mem_cons_of_mem _ hbpost))
  · show sSize m' h.base = 0
    have hbelow := hr.node_fits (List.mem_cons_self : h.base ∈ h.base :: frees (pre ++ c :: post))
    refine (hsize ?_ (by omega)).trans hr.base_size
    by_cases heq : h.base = prev
    · exact .inl heq
    · exact .inr (hr.nodes_apart hprev List.mem_cons_self fun h => heq h.symm)
  · show Path (sPtr m') h.base (h.base :: frees (pre ++ { c with used := true } :: post)) h.base
    rw [hnodes', hzs]
    rw [hzs] at hring
    refine (hring.upto.relink (fun a ha => hptr ?_ ?_) hw.ptr).append
      (hring.after.congr fun a ha => hptr ?_ ?_)
    · rw [hnodes, hzs]
      exact List.mem_append_left _ (List.mem_append_left _ ha)
    · exact (List.nodup_append.1 hfront).2.2 a ha prev List.mem_cons_self
    · rw [hnodes]
      exact List.mem_append_right _ (List.mem_cons_of_mem _ ha)
    · exact (hapart prev (List.mem_append_right _ List.mem_cons_self) a
        (List.mem_cons_of_mem _ ha)).symm
  · show prev ∈ h.base :: frees (pre ++ { c with used := true } :: post)
    rw [hnodes', hzs]
    exact List.mem_append_left _ (List.mem_append_right _ List.mem_cons_self)

/-- The tail of the block is taken. -/
theorem Rep.takeTail (hr : Rep start h (pre ++ c :: post)) (hc : c.used = false)
    (hpos : 0 < nunits.toNat)
    (hlt : nunits.toNat < c.size.toNat) (hprev : prev ∈ h.base :: frees (pre ++ c :: post)) :
    ∃ new : Block, new.used = true ∧ new.size = nunits ∧
      new.start = hdrAdd c.start (c.size - nunits) ∧ new.fin = c.fin ∧
      c.start.toNat + 16 ≤ new.start.toNat ∧
      Rep start { h with
          mem := setSize (setSize h.mem c.start (c.size - nunits)) new.start nunits
          freep := prev }
        (pre ++ { c with size := c.size - nunits } :: new :: post) ∧
      Differ c.start.toNat c.fin h.mem (setSize (setSize h.mem c.start (c.size - nunits)) new.start
        nunits) := by
  have hcmem : c ∈ pre ++ c :: post := List.mem_append_right _ List.mem_cons_self
  have hbounds := hr.bounds hcmem
  have htop := hr.top
  have hcsize : c.size.toNat < 2 ^ 32 := c.size.isLt
  have hfin : c.fin = c.start.toNat + 16 * c.size.toNat := rfl
  have hsub : (c.size - nunits).toNat = c.size.toNat - nunits.toNat := by
    rw [BitVec.toNat_sub]
    omega
  have hadd : (hdrAdd c.start (c.size - nunits)).toNat = c.start.toNat + 16 *
      (c.size.toNat - nunits.toNat) := by
    rw [toNat_hdrAdd (by omega), hsub]
  set new : Block :=
    { start := hdrAdd c.start (c.size - nunits), size := nunits, used := true } with hnew
  set rest : Block := { c with size := c.size - nunits } with hrest
  have hnewStart : new.start.toNat = c.start.toNat + 16 * (c.size.toNat - nunits.toNat) := hadd
  have hnewFin : new.fin = c.fin := by
    rw [Block.fin, hnewStart, hfin]
    show _ + 16 * nunits.toNat = _
    omega
  have hrestFin : rest.fin = new.start.toNat := by
    rw [Block.fin, hnewStart]
    show c.start.toNat + 16 * (c.size - nunits).toNat = _
    rw [hsub]
  set m₁ := setSize h.mem c.start (c.size - nunits) with hm₁
  have hw₁ : Wrote h.mem m₁ c.start (sPtr h.mem c.start) (c.size - nunits) :=
    Wrote.setSize (by omega)
  have hw₂ : Wrote m₁ (setSize m₁ new.start nunits) new.start (sPtr m₁ new.start) nunits :=
    Wrote.setSize (by omega)
  set m₂ := setSize m₁ new.start nunits with hm₂
  have hcheader := hw₂.other (b := c.start) (by omega) (by omega)
  have hother {a : Uint64} (ha : a.toNat + 16 ≤ c.start.toNat ∨ c.fin ≤ a.toNat)
    (hfit : a.toNat + 16 ≤ 2 ^ 64) :
      sPtr m₂ a = sPtr h.mem a ∧ sSize m₂ a = sSize h.mem a := by
    have h₁ := hw₁.other (b := a) hfit (by omega)
    have h₂ := hw₂.other (b := a) hfit (by omega)
    exact ⟨h₂.1.trans h₁.1, h₂.2.trans h₁.2⟩
  have hnodes : frees (pre ++ rest :: new :: post) = frees (pre ++ c :: post) := by
    have hrestFree : rest.used = false := hc
    rw [frees_append, frees_cons_free hrestFree, frees_cons_used rfl, frees_append,
      frees_cons_free hc]
  have hdiffer : Differ c.start.toNat c.fin h.mem m₂ :=
    (hw₁.rest.mono le_rfl (by omega)).trans (hw₂.rest.mono (by omega) (by omega))
  refine ⟨new, rfl, rfl, rfl, hnewFin, by omega, ⟨⟨hr.base_pos, hr.base_below, hr.units, hr.top⟩,
    ?_, fun b hb => ?_, ?_, ?_,
    ?_, ?_⟩, hdiffer⟩
  · obtain ⟨mid, htpre, hstart, -, htpost⟩ := tiles_append.1 hr.tiles
    refine tiles_append.2 ⟨mid, htpre, hstart, ?_, hrestFin.symm, hpos, hnewFin ▸ htpost⟩
    rw [hrest, hsub]
    omega
  · show sSize m₂ b.start = b.size
    have hold {b : Block} (hb : b ∈ pre ++ c :: post) (hbc : b ≠ c) :
        sSize m₂ b.start = b.size := by
      have hbb := hr.bounds hb
      have := hr.tiles.apart hb hcmem hbc
      exact (hother (by omega) (by omega)).2.trans (hr.sizes b hb)
    have hsorted := List.pairwise_append.1 hr.tiles.sorted
    rcases List.mem_append.1 hb with hbpre | hb
    · refine hold (List.mem_append_left _ hbpre) ?_
      rintro rfl
      have := hsorted.2.2 b hbpre b List.mem_cons_self
      omega
    · rcases List.mem_cons.1 hb with rfl | hb
      · exact hcheader.2.trans hw₁.size
      · rcases List.mem_cons.1 hb with rfl | hbpost
        · exact hw₂.size
        · refine hold (List.mem_append_right _ (List.mem_cons_of_mem _ hbpost)) ?_
          rintro rfl
          have := (List.pairwise_cons.1 hsorted.2.1).1 b hbpost
          omega
  · show sSize m₂ h.base = 0
    have hbelow := hr.base_below
    have hlow := (hr.tiles.bounds hcmem).1
    exact (hother (.inl (by omega)) (by omega)).2.trans hr.base_size
  · show Path (sPtr m₂) h.base (h.base :: frees (pre ++ rest :: new :: post)) h.base
    rw [hnodes]
    refine hr.ring.congr fun a ha => ?_
    have hfit := hr.node_fits ha
    rcases hr.tiles.node_apart hr.base_below ha hcmem with ⟨rfl, -⟩ | hapart
    · exact hcheader.1.trans hw₁.ptr
    · exact (hother hapart (by omega)).1
  · show prev ∈ h.base :: frees (pre ++ rest :: new :: post)
    rw [hnodes]
    exact hprev
  · have hgaps := hr.gaps
    rw [Gaps, List.isChain_append] at hgaps ⊢
    have hpost : Gaps post := hgaps.2.1.tail
    refine ⟨hgaps.1, (hpost.cons_used rfl).cons fun y hy => ?_, fun x hx y hy => ?_⟩
    · obtain rfl : new = y := by simpa using hy
      exact .inr rfl
    · obtain rfl : rest = y := by simpa using hy
      exact hgaps.2.2 x hx c (by simp)

/-- What a call of `malloc` for `nunits` units leaves behind: a new block in use, and the
other ones as they were. -/
def Took (start : Nat) (h : UHeap) (blocks : List Block) (nunits : BitVec 32)
    (r : Uint64 × UHeap) : Prop :=
  ∃ blocks' new, Rep start r.2 blocks' ∧ r.1 = new.start + HEADER ∧ new.used = true ∧
    new.size = nunits ∧
    r.2.base = h.base ∧ (useds blocks').Perm (new :: useds blocks) ∧ ∀ b ∈ useds blocks,
      b.Same h.mem r.2.mem

/-- **A block that is large enough is taken**, as a whole or from its tail. -/
theorem Rep.carve (hr : Rep start h (pre ++ c :: post)) (hc : c.used = false)
    (hpos : 0 < nunits.toNat)
    (hle : nunits.toNat ≤ c.size.toNat) (hprev : prev ∈ h.base :: frees (pre ++ c :: post))
    (hnext : sPtr h.mem prev = c.start) : Took start h (pre ++ c :: post) nunits
    (carve h nunits prev c.start) := by
  have hcmem : c ∈ pre ++ c :: post := List.mem_append_right _ List.mem_cons_self
  have hsize := hr.sizes c hcmem
  have huseds : useds (pre ++ c :: post) = useds pre ++ useds post := by
    rw [useds_append, useds_cons_free hc]
  by_cases heq : c.size = nunits
  · obtain ⟨hrep, hdiffer⟩ := hr.takeWhole hc hprev hnext
    have hcode : SignalOS.carve h nunits prev c.start
        = (c.start + HEADER,
          { h with mem := setPtr h.mem prev (sPtr h.mem c.start), freep := prev }) := by
      rw [SignalOS.carve, hsize, if_pos heq]
    rw [hcode]
    refine ⟨_, { c with used := true }, hrep, rfl, rfl, heq, rfl, ?_, fun b hb a hlo hhi => ?_⟩
    · rw [huseds, useds_append, useds_cons_used rfl]
      exact List.perm_middle
    · obtain ⟨hmem, hused⟩ := List.mem_filter.1 hb
      have hapart := (hr.tiles.node_apart hr.base_below hprev hmem).resolve_left fun h => by
        rw [hused] at h
        exact absurd h.2 (by simp)
      exact hdiffer a (by omega)
  · have hlt : nunits.toNat < c.size.toNat := by
      refine Nat.lt_of_le_of_ne hle fun h => heq (BitVec.eq_of_toNat_eq h.symm)
    obtain ⟨new, hused, hnsize, hstart, -, -, hrep, hdiffer⟩ := hr.takeTail hc hpos hlt hprev
    have hbounds := hr.bounds hcmem
    have htop := hr.top
    have hw : Wrote h.mem (setSize h.mem c.start (c.size - nunits)) c.start (sPtr h.mem c.start)
        (c.size - nunits) :=
      Wrote.setSize (by omega)
    have hcode : SignalOS.carve h nunits prev c.start = (new.start + HEADER, { h with
        mem := setSize (setSize h.mem c.start (c.size - nunits)) new.start nunits
        freep := prev }) := by
      rw [SignalOS.carve, hsize, if_neg heq]
      show (hdrAdd c.start (sSize (setSize h.mem c.start (c.size - nunits)) c.start) + HEADER,
        _) = _
      rw [hw.size, ← hstart]
    rw [hcode]
    refine ⟨_, new, hrep, rfl, hused, hnsize, rfl, ?_, fun b hb a hlo hhi => ?_⟩
    · have hrest : ({ c with size := c.size - nunits } : Block).used = false := hc
      rw [huseds, useds_append, useds_cons_free hrest, useds_cons_used hused]
      exact List.perm_middle
    · obtain ⟨hmem, hbused⟩ := List.mem_filter.1 hb
      have hne : b ≠ c := by
        rintro rfl
        rw [hc] at hbused
        cases hbused
      have hapart := hr.tiles.apart hmem hcmem hne
      exact hdiffer a (by omega)

/-! ## The walk -/

section Walk

variable {fuel n : Nat} {reply : SbrkReply} {zs : List Uint64}

/-- The walk is done at a node that is large enough. -/
theorem Rep.take_node (hr : Rep start h blocks) (hpos : 0 < nunits.toNat)
    (hp : p ∈ h.base :: frees blocks)
    (hprev : prev ∈ h.base :: frees blocks) (hnext : sPtr h.mem prev = p)
    (hge : sSize h.mem p ≥ nunits) :
    Took start h blocks nunits (SignalOS.carve h nunits prev p) := by
  have hle := BitVec.le_def.1 hge
  rcases List.mem_cons.1 hp with rfl | hmem
  · rw [hr.base_size] at hle
    exact absurd hpos (Nat.not_lt.2 hle)
  · obtain ⟨c, hc, hfree, rfl⟩ := mem_frees.1 hmem
    rw [hr.sizes c hc] at hle
    obtain ⟨pre, post, rfl⟩ := List.append_of_mem hc
    exact hr.carve hfree hpos hle hprev hnext

/-- **The walk around the ring**, from `p` on: it takes a block, or no block is large enough and
the kernel is asked for more. -/
theorem Rep.mallocLoop (hr : Rep start h blocks) (hpos : 0 < nunits.toNat)
    (hpath : Path (sPtr h.mem) p zs h.freep)
    (hsub : ∀ a ∈ zs, a ∈ h.base :: frees blocks ∧ a ≠ h.freep)
    (hprev : prev ∈ h.base :: frees blocks)
    (hnext : sPtr h.mem prev = p) (hfuel : zs.length < n) :
    (∃ r, mallocLoop fuel reply nunits n h prev p = some r ∧ Took start h blocks nunits r) ∨
      (∀ a ∈ h.freep :: zs, (sSize h.mem a).toNat < nunits.toNat) ∧
        mallocLoop fuel reply nunits n h prev p = (morecore fuel reply h nunits).bind fun r =>
          if r.1 = 0 then some r else
            SignalOS.mallocLoop fuel reply nunits (n - zs.length - 1) r.2 r.1
              (sPtr r.2.mem r.1) := by
  induction zs generalizing p prev n with
  | nil =>
    obtain ⟨n, rfl⟩ : ∃ m, n = m + 1 := ⟨n - 1, by simp at hfuel; omega⟩
    have hp : p = h.freep := path_nil.1 hpath
    rw [SignalOS.mallocLoop]
    by_cases hge : sSize h.mem p ≥ nunits
    · left
      rw [if_pos hge]
      exact ⟨_, rfl, hr.take_node hpos (hp ▸ hr.freep) hprev hnext hge⟩
    · right
      rw [if_neg hge, if_pos hp]
      refine ⟨fun a ha => ?_, rfl⟩
      rw [List.mem_singleton.1 ha, ← hp]
      exact Nat.lt_of_not_le fun hle => hge (BitVec.le_def.2 hle)
  | cons z zs ih =>
    obtain ⟨n, rfl⟩ : ∃ m, n = m + 1 := ⟨n - 1, by simp at hfuel; omega⟩
    obtain ⟨rfl, htail⟩ := hpath
    obtain ⟨hnode, hne⟩ := hsub p List.mem_cons_self
    rw [SignalOS.mallocLoop]
    by_cases hge : sSize h.mem p ≥ nunits
    · left
      rw [if_pos hge]
      exact ⟨_, rfl, hr.take_node hpos hnode hprev hnext hge⟩
    · rw [if_neg hge, if_neg hne]
      have hlt : (sSize h.mem p).toNat < nunits.toNat :=
        Nat.lt_of_not_le fun hle => hge (BitVec.le_def.2 hle)
      rcases ih htail (fun a ha => hsub a (List.mem_cons_of_mem _ ha)) hnode rfl
        (by simpa using hfuel) with hfound | ⟨hsmall, hrest⟩
      · exact .inl hfound
      · refine .inr ⟨fun a ha => ?_, ?_⟩
        · rcases List.mem_cons.1 ha with rfl | ha
          · exact hsmall _ List.mem_cons_self
          · rcases List.mem_cons.1 ha with rfl | ha
            · exact hlt
            · exact hsmall a (List.mem_cons_of_mem _ ha)
        · rw [hrest, List.length_cons, Nat.add_sub_add_right]

/-- The whole ring, from behind `freep` round to it. -/
theorem Rep.around (hr : Rep start h blocks) :
    ∃ zs, Path (sPtr h.mem) (sPtr h.mem h.freep) zs h.freep ∧
      (∀ a ∈ zs, a ∈ h.base :: frees blocks ∧ a ≠ h.freep) ∧
      (∀ a ∈ h.base :: frees blocks, a ∈ h.freep :: zs) ∧ zs.length ≤ blocks.length := by
  obtain ⟨xs, ys, hsplit⟩ := List.append_of_mem hr.freep
  have hring := hr.ring
  have hnodup := hr.nodes_nodup
  rw [hsplit] at hring hnodup
  obtain ⟨-, hnodup', hapart⟩ := List.nodup_append.1 hnodup
  refine ⟨ys ++ xs, hring.cut, fun a ha => ?_, fun a ha => ?_, ?_⟩
  · rw [hsplit]
    rcases List.mem_append.1 ha with ha | ha
    · refine ⟨List.mem_append_right _ (List.mem_cons_of_mem _ ha), ?_⟩
      rintro rfl
      exact (List.nodup_cons.1 hnodup').1 ha
    · exact ⟨List.mem_append_left _ ha, hapart a ha _ List.mem_cons_self⟩
  · rw [hsplit] at ha
    rcases List.mem_append.1 ha with ha | ha
    · exact List.mem_cons_of_mem _ (List.mem_append_right _ ha)
    · rcases List.mem_cons.1 ha with rfl | ha
      · exact List.mem_cons_self
      · exact List.mem_cons_of_mem _ (List.mem_append_left _ ha)
  · have hlen := congrArg List.length hsplit
    have hle : (frees blocks).length ≤ blocks.length := by
      rw [frees, List.length_map]
      exact List.length_filter_le _ _
    simp only [List.length_cons, List.length_append] at hlen ⊢
    omega

end Walk

/-! ## More memory -/

/-- How many units `morecore` asks for. -/
def askedUnits (nunits : BitVec 32) : Nat := max nunits.toNat 4096

theorem toNat_asked (nunits : BitVec 32) :
    (if nunits < 4096 then 4096 else nunits).toNat = askedUnits nunits := by
  rw [askedUnits]
  split
  · next h =>
    have hlt : nunits.toNat < 4096 := BitVec.lt_def.1 h
    rw [Nat.max_eq_right (Nat.le_of_lt hlt)]
    rfl
  · next h =>
    have hle : 4096 ≤ nunits.toNat := Nat.le_of_not_lt fun hlt => h (BitVec.lt_def.2 hlt)
    rw [Nat.max_eq_left hle]

/-- A request below `2 ^ 31` bytes reaches the kernel as it was meant. -/
theorem toInt_request {nu : BitVec 32} (h : 16 * nu.toNat < 2 ^ 31) :
    ofInt (toInt (nu.setWidth 64 * HEADER)) = BitVec.ofNat 64 (16 * nu.toNat) := by
  have hmul : (nu.setWidth 64 * HEADER).toNat = 16 * nu.toNat := by
    rw [BitVec.toNat_mul, BitVec.toNat_setWidth, show HEADER.toNat = 16 from rfl]
    omega
  have hwidth : ((nu.setWidth 64 * HEADER).setWidth 32).toNat = 16 * nu.toNat := by
    rw [BitVec.toNat_setWidth, hmul]
    omega
  have hint : toInt (nu.setWidth 64 * HEADER) = ((16 * nu.toNat : Nat) : Int) := by
    rw [toInt, BitVec.toInt_eq_toNat_of_lt (by omega), hwidth]
  rw [hint, ofInt, BitVec.ofInt_natCast]

/-- The new memory as a block in use at the end of the heap. -/
theorem Rep.extend (hr : Rep start h blocks) {nu : BitVec 32} (hpos : 0 < nu.toNat)
    (hunits : h.brk.toNat + 16 * nu.toNat < start + 2 ^ 36)
    (htop : h.brk.toNat + 16 * nu.toNat ≤ 2 ^ 38) :
    Rep start
      { h with brk := h.brk + BitVec.ofNat 64 (16 * nu.toNat), mem := setSize h.mem h.brk nu }
      (blocks ++ [{ start := h.brk, size := nu, used := true }]) := by
  have hbrk : (h.brk + BitVec.ofNat 64 (16 * nu.toNat)).toNat = h.brk.toNat + 16 * nu.toNat := by
    rw [BitVec.toNat_add, BitVec.toNat_ofNat]
    omega
  have hle := hr.tiles.le
  have hbelow := hr.base_below
  have hw : Wrote h.mem (setSize h.mem h.brk nu) h.brk (sPtr h.mem h.brk) nu :=
    Wrote.setSize (by omega)
  have hother {a : Uint64} (ha : a.toNat + 16 ≤ h.brk.toNat) :=
    hw.other (b := a) (by omega) (.inr ha)
  refine ⟨⟨hr.base_pos, hbelow, ?_, ?_⟩, ?_, fun b hb => ?_, ?_, ?_, ?_, ?_⟩
  · show (h.brk + _).toNat < _
    rw [hbrk]
    exact hunits
  · show (h.brk + _).toNat ≤ _
    rw [hbrk]
    exact htop
  · refine tiles_append.2 ⟨h.brk.toNat, hr.tiles, rfl, hpos, ?_⟩
    exact hbrk.symm
  · show sSize (setSize h.mem h.brk nu) b.start = b.size
    rcases List.mem_append.1 hb with hb | hb
    · have hbounds := hr.bounds hb
      exact (hother (by omega)).2.trans (hr.sizes b hb)
    · obtain rfl := List.mem_singleton.1 hb
      exact hw.size
  · show sSize (setSize h.mem h.brk nu) h.base = 0
    exact (hother (by omega)).2.trans hr.base_size
  · show Path (sPtr (setSize h.mem h.brk nu)) h.base (h.base :: frees _) h.base
    rw [frees_split rfl, frees_nil, List.append_nil]
    refine hr.ring.congr fun a ha => (hother ?_).1
    rcases List.mem_cons.1 ha with rfl | ha
    · omega
    · obtain ⟨b, hb, -, rfl⟩ := mem_frees.1 ha
      have := hr.bounds hb
      omega
  · show h.freep ∈ h.base :: frees _
    rw [frees_split rfl, frees_nil, List.append_nil]
    exact hr.freep
  · exact hr.gaps.append (List.IsChain.singleton _) fun x _ y hy => .inr (by
      obtain rfl : ({ start := h.brk, size := nu, used := true } : Block) = y := by simpa using hy
      rfl)

/-- **`morecore` puts a block on the ring that is large enough.** -/
theorem Rep.morecore (hr : Rep start h blocks) {fuel : Nat}
    (hint : 16 * askedUnits nunits < 2 ^ 31)
    (hunits : h.brk.toNat + 16 * askedUnits nunits < start + 2 ^ 36)
    (htop : h.brk.toNat + 16 * askedUnits nunits ≤ 2 ^ 38) (hfuel : blocks.length + 1 < fuel) :
    ∃ h' blocks', morecore fuel .granted h nunits = some (h'.freep, h') ∧ Rep start h' blocks' ∧
      (∃ c ∈ blocks', c.used = false ∧ nunits.toNat ≤ c.size.toNat) ∧
        useds blocks' = useds blocks ∧
      blocks'.length ≤ blocks.length + 1 ∧ h'.base = h.base ∧ ∀ b ∈ useds blocks,
        b.Same h.mem h'.mem := by
  have hasked := toNat_asked nunits
  set nu := if nunits < 4096 then 4096 else nunits with hnu
  rw [← hasked] at hint hunits htop
  have hle : nunits.toNat ≤ nu.toNat := by
    rw [hasked]
    exact Nat.le_max_left _ _
  have hpos : 0 < nu.toNat := by
    rw [hasked]
    exact Nat.lt_of_lt_of_le (by decide) (Nat.le_max_right _ _)
  set b : Block := { start := h.brk, size := nu, used := true } with hb
  have hext := hr.extend hpos hunits htop
  have hroom : (blocks ++ b :: []).length < fuel := by simpa using hfuel
  obtain ⟨m, p, blocks', hrun, hrep, ⟨c, hc, hfree, hstart, hfin⟩, huseds, hlen, hsame⟩ :=
    hext.free rfl hroom
  have hne : h.brk ≠ ofInt (-1) := by
    intro heq
    have := hr.top
    rw [heq] at this
    exact absurd this (by decide)
  refine ⟨_, blocks', ?_, hrep, ⟨c, hc, hfree, ?_⟩, by simpa using huseds, by simpa using hlen,
    rfl,
    fun b' hb' a hlo hhi => ?_⟩
  · rw [SignalOS.morecore]
    simp only [← hnu, sbrk, toInt_request hint, if_neg hne]
    rw [hrun]
    rfl
  · have hbfin : b.fin = h.brk.toNat + 16 * nu.toNat := rfl
    have hbstart : b.start.toNat = h.brk.toNat := rfl
    rw [hbfin, Block.fin] at hfin
    rw [hbstart] at hstart
    omega
  · have hmem := (List.mem_filter.1 hb').1
    have hbounds := hr.bounds hmem
    show m a = h.mem a
    rw [hsame b' (by simpa using hb') a hlo hhi]
    have hw : Wrote h.mem (setSize h.mem h.brk nu) h.brk (sPtr h.mem h.brk) nu :=
      Wrote.setSize (by have := hr.top; omega)
    exact hw.rest a (by omega)

/-- The free list is there. -/
theorem Rep.freep_ne_zero (hr : Rep start h blocks) : h.freep ≠ 0 := by
  intro hzero
  have hpos := hr.base_pos
  rcases List.mem_cons.1 hr.freep with heq | hmem
  · rw [← heq, hzero] at hpos
    exact absurd hpos (by decide)
  · obtain ⟨b, hb, -, heq⟩ := mem_frees.1 hmem
    have hbounds := hr.bounds hb
    rw [heq, hzero] at hbounds
    exact absurd hbounds.1 (by simp)

/-- **The specification of `malloc`**, when the free list is there: it returns, with a block
of the size asked for, or with null if the kernel has no more memory. -/
theorem Rep.malloc (hr : Rep start h blocks) {fuel : Nat} {reply : SbrkReply} {nbytes : BitVec 32}
    (hreply : reply ≠ .einval)
    (hgrant : reply = .granted → 16 * askedUnits (nunitsOf nbytes) < 2 ^ 31 ∧
      h.brk.toNat + 16 * askedUnits (nunitsOf nbytes) < start + 2 ^ 36 ∧
      h.brk.toNat + 16 * askedUnits (nunitsOf nbytes) ≤ 2 ^ 38)
    (hfuel : 2 * blocks.length + 4 ≤ fuel) :
    ∃ r, malloc fuel reply h nbytes = some r ∧
      (r = (0, h) ∧ reply = .enomem ∨ Took start h blocks (nunitsOf nbytes) r) := by
  have hpos : 0 < (nunitsOf nbytes).toNat := by rw [toNat_nunitsOf]; exact Nat.succ_pos _
  obtain ⟨zs, hpath, hsub, -, hlen⟩ := hr.around
  rw [SignalOS.malloc, mallocInit, if_neg hr.freep_ne_zero]
  have hturns : zs.length < fuel := by omega
  rcases hr.mallocLoop hpos hpath hsub hr.freep rfl hturns with ⟨r, hrun, htook⟩ | ⟨-, hrun⟩
  · exact ⟨r, hrun, .inr htook⟩
  · rw [hrun]
    cases reply with
    | einval => exact absurd rfl hreply
    | enomem => exact ⟨(0, h), rfl, .inl ⟨rfl, rfl⟩⟩
    | granted =>
      obtain ⟨hint, hunits, htop⟩ := hgrant rfl
      have hroom : blocks.length + 1 < fuel := by omega
      obtain ⟨h', blocks', hmore, hrep, ⟨c, hc, hfree, hsize⟩, huseds, hlen', hbase, hsame⟩ :=
        hr.morecore hint hunits htop hroom
      rw [hmore, Option.bind_some, if_neg hrep.freep_ne_zero]
      obtain ⟨zs', hpath', hsub', hall', hzlen'⟩ := hrep.around
      have hturns' : zs'.length < fuel - zs.length - 1 := by omega
      rcases hrep.mallocLoop hpos hpath' hsub' hrep.freep rfl hturns' with ⟨r, hrun',
        htook⟩ | ⟨hsmall, -⟩
      · obtain ⟨blocks'', new, hrep'', hr1, hnused, hnsize, hbase', hperm, hsame'⟩ := htook
        refine ⟨r, hrun', .inr ⟨blocks'', new, hrep'', hr1, hnused, hnsize, hbase'.trans hbase,
          huseds ▸ hperm, ?_⟩⟩
        intro b hb a hlo hhi
        rw [hsame' b (huseds ▸ hb) a hlo hhi, hsame b hb a hlo hhi]
      · have hnode : c.start ∈ h'.base :: frees blocks' :=
          List.mem_cons_of_mem _ (mem_frees.2 ⟨c, hc, hfree, rfl⟩)
        have hlt := hsmall _ (hall' _ hnode)
        rw [hrep.sizes c hc] at hlt
        exact absurd hsize (Nat.not_le.2 hlt)

end SignalOS
