import SignalOS.User.Blocks

/-!
# Freeing a block

`free` puts a block back on the ring of free blocks and joins it with the free blocks it
touches.

* `Stops`, `freeScan_path` — where the loop ends; `Rep.freeScan` — it ends, at the last
  node of the ring in front of the block.
* `Joined` — the heap between the two halves of `free`; `Rep.joinNext`, `Joined.joinPrev`
  — what each half does.
* `Rep.free` — **the specification of `free`**.
-/

namespace SignalOS

open Links

/-! ## The loop -/

/-- The loop of `free` ends at `p`. -/
def Stops (m : Uint64 → Byte) (bp p : Uint64) : Prop :=
  (bp > p ∧ bp < sPtr m p) ∨ (p ≥ sPtr m p ∧ (bp > p ∨ bp < sPtr m p))

section Loop

variable {m : Uint64 → Byte} {bp p x : Uint64} {zs : List Uint64} {n : Nat}

theorem freeScan_stops (h : Stops m bp p) : freeScan m bp (n + 1) p = some p := by
  rw [freeScan]
  by_cases hin : bp > p ∧ bp < sPtr m p
  · rw [if_pos hin]
  · rw [if_neg hin, if_pos (h.resolve_left hin)]

theorem freeScan_skip (h : ¬ Stops m bp p) :
    freeScan m bp (n + 1) p = freeScan m bp n (sPtr m p) := by
  rw [freeScan, if_neg fun hin => h (.inl hin), if_neg fun hout => h (.inr hout)]

/-- The loop walks along the ring. -/
theorem freeScan_path (h : Path (sPtr m) x zs p) (hskip : ∀ y ∈ zs, ¬ Stops m bp y) :
    freeScan m bp (zs.length + n) x = freeScan m bp n p := by
  induction zs generalizing x with
  | nil => rw [path_nil.1 h, List.length_nil, Nat.zero_add]
  | cons z zs ih =>
    obtain ⟨rfl, htail⟩ := h
    rw [List.length_cons, Nat.succ_add, freeScan_skip (hskip x List.mem_cons_self),
      ih htail fun y hy => hskip y (List.mem_cons_of_mem _ hy)]

end Loop

variable {start : Nat} {h : UHeap} {pre post blocks : List Block} {b c : Block} {p : Uint64}
  {front : List Uint64}

/-- Around a block in use, the nodes of the ring before it and those behind it. -/
theorem frees_split (hb : b.used = true) : frees (pre ++ b :: post) = frees pre ++ frees post := by
  rw [frees_append, frees_cons_used hb]

/-- The nodes before a block are in front of it. -/
theorem Rep.before (hr : Rep start h (pre ++ b :: post)) {a : Uint64}
    (ha : a ∈ h.base :: frees pre) :
    a.toNat + 16 ≤ b.start.toNat := by
  rcases List.mem_cons.1 ha with rfl | ha
  · exact (hr.bounds (List.mem_append_right _ List.mem_cons_self)).1
  · obtain ⟨c, hc, -, rfl⟩ := mem_frees.1 ha
    have hsorted := (List.pairwise_append.1 hr.tiles.sorted).2.2 c hc b List.mem_cons_self
    have hbounds := hr.bounds (List.mem_append_left _ hc)
    omega

/-- The blocks behind a block begin where it ends, or later. -/
theorem Rep.behind (hr : Rep start h (pre ++ b :: post)) {a : Uint64} (ha : a ∈ frees post) :
    b.fin ≤ a.toNat := by
  obtain ⟨c, hc, -, rfl⟩ := mem_frees.1 ha
  exact (List.pairwise_cons.1 (List.pairwise_append.1 hr.tiles.sorted).2.1).1 c hc

/-- **The loop of `free` ends**, at the last node in front of the block. -/
theorem Rep.freeScan (hr : Rep start h (pre ++ b :: post)) (hb : b.used = true)
    (hfront : h.base :: frees pre = front ++ [p]) {fuel : Nat}
    (hfuel : (pre ++ b :: post).length < fuel) :
    freeScan h.mem b.start fuel h.freep = some p := by
  have hnodes : h.base :: frees (pre ++ b :: post) = front ++ p :: frees post := by
    rw [frees_split hb, ← List.cons_append, hfront, List.append_assoc, List.singleton_append]
  have hring := hr.ring
  have hsorted := hr.nodes_sorted
  have hfreep := hr.freep
  rw [hnodes] at hring hsorted hfreep
  have hbefore (y : Uint64) (hy : y ∈ front ++ [p]) : y.toNat + 16 ≤ b.start.toNat :=
    hr.before (hfront ▸ hy)
  have hbehind (y : Uint64) (hy : y ∈ frees post) : b.start.toNat < y.toNat := by
    have hfin := (hr.bounds (b := b) (List.mem_append_right _ List.mem_cons_self)).2.1
    have := hr.behind hy
    omega
  have hbase : h.base.toNat ≤ p.toNat := by
    have hp : p ∈ h.base :: frees pre := hfront ▸ List.mem_append_right _ List.mem_cons_self
    rcases List.mem_cons.1 hp with rfl | hp
    · exact le_rfl
    · have := (List.pairwise_cons.1 hr.nodes_sorted).1 p (by
        rw [frees_split hb]
        exact List.mem_append_left _ hp)
      omega
  have hp := hbefore p (List.mem_append_right _ List.mem_cons_self)
  have hstop : Stops h.mem b.start p := by
    have hafter := hring.after
    cases hpost : frees post with
    | nil =>
      rw [hpost, path_nil] at hafter
      refine .inr ⟨?_, .inl (BitVec.lt_def.2 (by omega))⟩
      rw [hafter]
      exact BitVec.le_def.2 hbase
    | cons q qs =>
      rw [hpost] at hafter
      have hq := hbehind q (hpost ▸ List.mem_cons_self)
      refine .inl ⟨BitVec.lt_def.2 (by omega), ?_⟩
      rw [hafter.1]
      exact BitVec.lt_def.2 hq
  have hskip (y : Uint64) (hy : y ∈ frees post ++ front) : ¬ Stops h.mem b.start y := by
    rcases List.mem_append.1 hy with hy | hy
    · -- behind the block: the next node is further on, or it is `base`
      have hyb := hbehind y hy
      obtain ⟨us, vs, hsplit⟩ := List.append_of_mem hy
      have hring' : Path (sPtr h.mem) h.base ((front ++ p :: us) ++ y :: vs) h.base := by
        rw [List.append_assoc, List.cons_append, ← hsplit]
        exact hring
      rintro (⟨hlt, -⟩ | ⟨hge, hlt | hlt⟩)
      · have := BitVec.lt_def.1 hlt
        omega
      · have := BitVec.lt_def.1 hlt
        omega
      · cases vs with
        | nil =>
          rw [path_nil.1 hring'.after] at hlt
          have := BitVec.lt_def.1 hlt
          omega
        | cons v vs =>
          have hnext := hring'.next_mem (List.cons_ne_nil v vs)
          have htail : (y :: v :: vs).Pairwise fun a b => a.toNat + 16 ≤ b.toNat := by
            rw [hsplit] at hsorted
            exact (List.pairwise_append.1
              (List.pairwise_cons.1 (List.pairwise_append.1 hsorted).2.1).2).2.1
          have hlater := (List.pairwise_cons.1 htail).1 _ hnext
          have := BitVec.le_def.1 hge
          omega
    · -- in front of it, but not the last one: the next node is in front of it as well
      obtain ⟨us, vs, rfl⟩ := List.append_of_mem hy
      have hring' : Path (sPtr h.mem) h.base (us ++ y :: (vs ++ p :: frees post)) h.base := by
        simpa using hring
      have hupto : Path (sPtr h.mem) h.base (us ++ y :: (vs ++ [p])) (sPtr h.mem p) := by
        have happend : us ++ y :: (vs ++ [p]) = (us ++ y :: vs) ++ [p] := by simp
        rw [happend]
        exact hring.upto.append ⟨rfl, rfl⟩
      have hnext := hupto.next_mem (by simp)
      have hlast := hbefore _ (by
        rw [List.append_assoc]
        exact List.mem_append_right _ (List.mem_cons_of_mem _ hnext))
      have hlater : y.toNat + 16 ≤ (sPtr h.mem y).toNat := by
        rw [List.append_assoc] at hsorted
        refine (List.pairwise_cons.1 (List.pairwise_append.1 hsorted).2.1).1 _ ?_
        rcases List.mem_append.1 hnext with hmem | hmem
        · exact List.mem_append_left _ hmem
        · exact List.mem_append_right _ (List.mem_singleton.1 hmem ▸ List.mem_cons_self)
      rintro (⟨-, hlt⟩ | ⟨hge, -⟩)
      · have := BitVec.lt_def.1 hlt
        omega
      · have := BitVec.le_def.1 hge
        omega
  obtain ⟨zs, hpath, hsub, hlen⟩ := hring.reach hfreep
  have hlength : (frees post ++ front).length ≤ (pre ++ b :: post).length := by
    have hle : (frees (pre ++ b :: post)).length ≤ (pre ++ b :: post).length := by
      rw [frees, List.length_map]
      exact List.length_filter_le _ _
    have heq := congrArg List.length hnodes
    simp only [List.length_append, List.length_cons] at heq hle ⊢
    omega
  obtain ⟨n, rfl⟩ : ∃ n, fuel = zs.length + (n + 1) := ⟨fuel - zs.length - 1, by omega⟩
  rw [freeScan_path hpath fun y hy => hskip y (hsub hy), freeScan_stops hstop]

/-! ## The two halves of `free` -/

/-- The block that covers `b` and `c`. -/
def Block.join (b c : Block) : Block :=
  { start := b.start, size := b.size + c.size, used := false }

theorem Block.size_join (hbc : c.start.toNat = b.fin) (hfit : c.fin < b.start.toNat + 2 ^ 36) :
    (b.join c).size.toNat = b.size.toNat + c.size.toNat := by
  rw [Block.fin] at hbc hfit
  rw [Block.join, BitVec.toNat_add]
  omega

theorem Block.fin_join (hbc : c.start.toNat = b.fin) (hfit : c.fin < b.start.toNat + 2 ^ 36) :
    (b.join c).fin = c.fin := by
  have hsize := Block.size_join hbc hfit
  rw [Block.fin] at hbc
  show b.start.toNat + 16 * (b.join c).size.toNat = c.start.toNat + 16 * c.size.toNat
  omega

/-- The heap `h` after the first half of `free`: its memory is `m`, the block `b` is
linked to what comes behind it, and nothing is linked to it. -/
structure Joined (start : Nat) (h : UHeap) (m : Uint64 → Byte) (pre : List Block) (b : Block)
    (post : List Block) : Prop
    extends Placed start h where
  tiles : Tiles start (pre ++ b :: post) h.brk.toNat
  sizes : ∀ c ∈ pre ++ b :: post, sSize m c.start = c.size
  base_size : sSize m h.base = 0
  front : ∃ q, Path (sPtr m) h.base (h.base :: frees pre) q
  back : Path (sPtr m) (sPtr m b.start) (frees post) h.base
  free : b.used = false
  gaps_pre : Gaps pre
  gaps_post : Gaps (b :: post)

/-- The header of a block was overwritten and nothing else. -/
theorem Rep.joined {m' : Uint64 → Byte} {q' : Uint64} {b' : Block} {post' : List Block}
    (hr : Rep start h (pre ++ b :: post)) (hb : b.used = true)
    (hw : Wrote h.mem m' b.start q' b'.size)
    (hstart : b'.start = b.start) (hfree : b'.used = false) (hsub : ∀ c ∈ post', c ∈ post)
    (htiles : Tiles start (pre ++ b' :: post') h.brk.toNat) (hback : Path (sPtr h.mem) q'
    (frees post') h.base)
    (hgaps : Gaps (b' :: post')) : Joined start h m' pre b' post' := by
  have hmem : b ∈ pre ++ b :: post := List.mem_append_right _ List.mem_cons_self
  have hfits := hr.bounds hmem
  have htop := hr.top
  have hbefore {a : Uint64} (ha : a ∈ h.base :: frees pre) := hw.other (b := a)
    (by have := hr.before ha; omega) (.inr (hr.before ha))
  have hother {c : Block} (hc : c ∈ pre ++ b :: post) (hne : b ≠ c) := hw.other (b := c.start)
    (by have := hr.bounds hc; omega)
      (by have := hr.tiles.apart hmem hc hne; have := hr.bounds hc; omega)
  have hsorted := List.pairwise_append.1 hr.tiles.sorted
  refine ⟨hr.toPlaced, htiles, fun c hc => ?_, ?_, ?_, ?_, hfree, ?_, hgaps⟩
  · rcases List.mem_append.1 hc with hc | hc
    · have hne : b ≠ c := by
        rintro rfl
        have := hsorted.2.2 b hc b List.mem_cons_self
        omega
      rw [(hother (List.mem_append_left _ hc) hne).2, hr.sizes c (List.mem_append_left _ hc)]
    · rcases List.mem_cons.1 hc with rfl | hc
      · rw [hstart, hw.size]
      · have hmem' : c ∈ pre ++ b :: post :=
          List.mem_append_right _ (List.mem_cons_of_mem _ (hsub c hc))
        have hne : b ≠ c := by
          rintro rfl
          have := (List.pairwise_cons.1 hsorted.2.1).1 b (hsub b hc)
          omega
        rw [(hother hmem' hne).2, hr.sizes c hmem']
  · rw [(hbefore List.mem_cons_self).2, hr.base_size]
  · have hring := hr.ring
    rw [frees_split hb, ← List.cons_append] at hring
    obtain ⟨q, hfront, -⟩ := path_append.1 hring
    exact ⟨q, hfront.congr fun a ha => (hbefore ha).1⟩
  · rw [hstart, hw.ptr]
    refine hback.congr fun a ha => ?_
    obtain ⟨c, hc, -, rfl⟩ := mem_frees.1 ha
    have hmem' : c ∈ pre ++ b :: post :=
      List.mem_append_right _ (List.mem_cons_of_mem _ (hsub c hc))
    refine (hother hmem' ?_).1
    rintro rfl
    have := (List.pairwise_cons.1 hsorted.2.1).1 b (hsub b hc)
    omega
  · exact hr.gaps.left_of_append

/-- **The first half of `free`** joins the block with a free block behind it. -/
theorem Rep.joinNext (hr : Rep start h (pre ++ b :: post)) (hb : b.used = true)
    (hfront : h.base :: frees pre = front ++ [p]) :
    ∃ b' post', Joined start h (joinNext h.mem p b.start) pre b' post' ∧ b'.start = b.start ∧
      b.fin ≤ b'.fin ∧
      (post'.filter fun c => c.used) = (post.filter fun c => c.used) ∧ post'.length ≤ post.length ∧
      Differ b.start.toNat (b.start.toNat + 16) h.mem (joinNext h.mem p b.start) := by
  have hmem : b ∈ pre ++ b :: post := List.mem_append_right _ List.mem_cons_self
  have hfits := hr.bounds hmem
  have htop := hr.top
  have hsize : sSize h.mem b.start = b.size := hr.sizes b hmem
  have hadd : (hdrAdd b.start b.size).toNat = b.fin := by
    rw [toNat_hdrAdd (by rw [Block.fin] at hfits; omega), Block.fin]
  have hring : Path (sPtr h.mem) h.base (front ++ p :: frees post) h.base := by
    have hring := hr.ring
    rwa [frees_split hb, ← List.cons_append, hfront, List.append_assoc, List.singleton_append]
      at hring
  have hafter := hring.after
  have hp : p.toNat + 16 ≤ b.start.toNat :=
    hr.before (hfront ▸ List.mem_append_right _ List.mem_cons_self)
  obtain ⟨mid, htpre, hstart, hpos, htpost⟩ := tiles_append.1 hr.tiles
  have hgaps := hr.gaps.right_of_append
  -- what the code does when the test fails
  have hapart (hne : b.fin ≠ (sPtr h.mem p).toNat)
    (hgaps' : Gaps ({ b with used := false } :: post)) :
      ∃ b' post', Joined start h (SignalOS.joinNext h.mem p b.start) pre b' post' ∧
        b'.start = b.start ∧ b.fin ≤ b'.fin ∧
        (post'.filter fun c => c.used) = (post.filter fun c => c.used) ∧
          post'.length ≤ post.length ∧
        Differ b.start.toNat (b.start.toNat + 16) h.mem (SignalOS.joinNext h.mem p b.start) := by
    have hw : Wrote h.mem (SignalOS.joinNext h.mem p b.start) b.start (sPtr h.mem p) b.size := by
      rw [SignalOS.joinNext, hsize, if_neg fun heq => hne (by rw [← heq, hadd]), ← hsize]
      exact Wrote.setPtr (by omega)
    refine ⟨{ b with used := false }, post, hr.joined hb hw rfl rfl (fun _ hc => hc) ?_ hafter
      hgaps', rfl, le_rfl, rfl,
      le_rfl, hw.rest⟩
    exact tiles_append.2 ⟨mid, htpre, hstart, hpos, htpost⟩
  cases post with
  | nil =>
    have hbase : sPtr h.mem p = h.base := path_nil.1 hafter
    have hbelow := hr.before (b := b) List.mem_cons_self
    refine hapart (fun heq => ?_) (List.IsChain.singleton _)
    rw [hbase] at heq
    omega
  | cons c rest =>
    obtain ⟨hcstart, hcpos, htrest⟩ := htpost
    cases hc : c.used with
    | true =>
      refine hapart (fun heq => ?_) (hgaps.tail.cons fun d hd => .inr ?_)
      · rw [frees_cons_used hc] at hafter
        have hcfin : c.fin = c.start.toNat + 16 * c.size.toNat := rfl
        cases hrest : frees rest with
        | nil =>
          rw [hrest, path_nil] at hafter
          have hbelow := hr.before (b := b) List.mem_cons_self
          rw [hafter] at heq
          omega
        | cons q qs =>
          rw [hrest] at hafter
          obtain ⟨d, hd, -, hdq⟩ := mem_frees.1 (hrest ▸ List.mem_cons_self : q ∈ frees rest)
          have hle := (htrest.bounds hd).1
          rw [hafter.1, ← hdq] at heq
          omega
      · obtain rfl : c = d := by simpa using hd
        exact hc
    | false =>
      have hcmem : c ∈ pre ++ b :: c :: rest :=
        List.mem_append_right _ (List.mem_cons_of_mem _ List.mem_cons_self)
      have hcfits := hr.bounds hcmem
      have hunits := hr.units
      have hlow := (hr.tiles.bounds hmem).1
      have hfin : (b.join c).fin = c.fin := Block.fin_join hcstart (by omega)
      rw [frees_cons_free hc] at hafter
      have hq : sPtr h.mem p = c.start := hafter.1
      have heq : hdrAdd b.start b.size = c.start := BitVec.eq_of_toNat_eq (by rw [hadd, hcstart])
      set m := setSize h.mem b.start (b.size + c.size) with hm
      have hw₁ : Wrote h.mem m b.start (sPtr h.mem b.start) (b.size + c.size) :=
        Wrote.setSize (by omega)
      have hw₂ : Wrote m (setPtr m b.start (sPtr h.mem c.start)) b.start (sPtr h.mem c.start)
          (sSize m b.start) :=
        Wrote.setPtr (by omega)
      rw [hw₁.size] at hw₂
      have hw := hw₁.trans hw₂
      have hcode : SignalOS.joinNext h.mem p b.start = setPtr m b.start (sPtr h.mem c.start) := by
        rw [SignalOS.joinNext, hsize, hq, if_pos heq, hr.sizes c hcmem]
        show setPtr m b.start (sPtr m (sPtr m p)) = _
        rw [(hw₁.other (b := p) (by omega) (by omega)).1, hq,
          (hw₁.other (b := c.start) (by omega) (by omega)).1]
      rw [hcode]
      refine ⟨b.join c, rest, hr.joined hb hw rfl rfl (fun _ hd => List.mem_cons_of_mem _ hd) ?_
        hafter.2 ?_, rfl, ?_, ?_,
        Nat.le_succ _, hw.rest⟩
      · refine tiles_append.2 ⟨mid, htpre, hstart, ?_, hfin ▸ htrest⟩
        rw [Block.size_join hcstart (by omega)]
        exact Nat.add_pos_left hpos _
      · exact (show Gaps (c :: rest) from hgaps.tail).head hc.symm
      · omega
      · rw [List.filter_cons_of_neg (by simp [hc])]

section JoinPrev

variable {m m' : Uint64 → Byte} {ptr : Uint64} {size : BitVec 32} {a : Uint64} {us : List Block}
  {d : Block}

/-- Two nodes are apart. -/
theorem Joined.nodes_apart (hj : Joined start h m pre b post) {a' : Uint64}
    (ha : a ∈ h.base :: frees (pre ++ b :: post)) (ha' : a' ∈ h.base :: frees (pre ++ b :: post))
    (hne : a ≠ a') :
    a.toNat + 16 ≤ a'.toNat ∨ a'.toNat + 16 ≤ a.toNat := by
  have hsymm : Std.Symm fun a a' : Uint64 => a.toNat + 16 ≤ a'.toNat ∨ a'.toNat + 16 ≤ a.toNat :=
    ⟨fun _ _ => Or.symm⟩
  have hboth : (h.base :: frees (pre ++ b :: post)).Pairwise
      fun a a' => a.toNat + 16 ≤ a'.toNat ∨ a'.toNat + 16 ≤ a.toNat :=
        (hj.tiles.nodes_sorted hj.base_below).imp .inl
  exact hboth.forall ha ha' hne

theorem Joined.node_fits (hj : Joined start h m pre b post)
    (ha : a ∈ h.base :: frees (pre ++ b :: post)) :
    a.toNat + 16 ≤ 2 ^ 38 := by
  have htop := hj.top
  rcases List.mem_cons.1 ha with rfl | ha
  · have := hj.base_below
    have := hj.tiles.le
    omega
  · obtain ⟨c, hc, -, rfl⟩ := mem_frees.1 ha
    have := hj.tiles.bounds hc
    omega

/-- After the header of a node was written, the blocks are represented if the ring is
right. -/
theorem Joined.rep (hj : Joined start h m pre b post) (hw : Wrote m m' p ptr size)
    (hp : p ∈ h.base :: frees (pre ++ b :: post)) (htiles : Tiles start blocks h.brk.toNat)
    (hsizes : ∀ c ∈ blocks, c.start = p ∧ c.size = size ∨ c.start ≠ p ∧ c ∈ pre ++ b :: post)
    (hbase : h.base = p → size = 0) (hring : Path (sPtr m') h.base (h.base :: frees blocks) h.base)
    (hnode : p ∈ h.base :: frees blocks) (hgaps : Gaps blocks) :
    Rep start { h with mem := m', freep := p } blocks := by
  refine ⟨⟨hj.base_pos, hj.base_below, hj.units, hj.top⟩, htiles, fun c hc => ?_, ?_, hring,
    hnode, hgaps⟩
  · rcases hsizes c hc with ⟨hstart, hsize⟩ | ⟨hne, hmem⟩
    · show sSize m' c.start = c.size
      rw [hstart, hw.size, hsize]
    · have hfits := hj.tiles.bounds hmem
      have htop := hj.top
      rcases hj.tiles.node_apart hj.base_below hp hmem with ⟨heq, -⟩ | hapart
      · exact absurd heq.symm hne
      · exact (hw.other (by omega) (by omega)).2.trans (hj.sizes c hmem)
  · show sSize m' h.base = 0
    by_cases heq : h.base = p
    · rw [heq, hw.size, hbase heq]
    · have hbelow :=
        hj.node_fits (List.mem_cons_self : h.base ∈ h.base :: frees (pre ++ b :: post))
      have hapart := hj.nodes_apart hp List.mem_cons_self fun h => heq h.symm
      exact (hw.other (by omega) hapart).2.trans hj.base_size

/-- The second half of `free` when the block does not touch the one before it. -/
theorem Joined.linkPrev (hj : Joined start h m pre b post)
    (hfront : h.base :: frees pre = front ++ [p])
    (hne : hdrAdd p (sSize m p) ≠ b.start) (hlast : ∀ c ∈ pre.getLast?, c.used = true) :
    Rep start { h with mem := joinPrev m p b.start, freep := p } (pre ++ b :: post) ∧
      Differ p.toNat (p.toNat + 16) m (joinPrev m p b.start) := by
  have hnodes : h.base :: frees (pre ++ b :: post) = (front ++ [p]) ++ b.start :: frees post := by
    rw [frees_append, frees_cons_free hj.free, ← List.cons_append, hfront]
  have hp : p ∈ h.base :: frees (pre ++ b :: post) := by
    rw [hnodes]
    exact List.mem_append_left _ (List.mem_append_right _ List.mem_cons_self)
  have hfits := hj.node_fits hp
  have hw : Wrote m (joinPrev m p b.start) p b.start (sSize m p) := by
    rw [joinPrev, if_neg hne]
    exact Wrote.setPtr (by omega)
  have hsame {a : Uint64} (ha : a ∈ h.base :: frees (pre ++ b :: post)) (hap : a ≠ p) :
      sPtr (joinPrev m p b.start) a = sPtr m a := by
    have := hj.node_fits ha
    exact (hw.other (by omega) (hj.nodes_apart hp ha hap.symm)).1
  have hnodup : ((front ++ [p]) ++ b.start :: frees post).Nodup := by
    rw [← hnodes]
    exact (hj.tiles.nodes_sorted hj.base_below).imp fun hab heq => by rw [heq] at hab; omega
  obtain ⟨hnodup', -, hapart⟩ := List.nodup_append.1 hnodup
  obtain ⟨q, hpath⟩ := hj.front
  rw [hfront] at hpath
  refine ⟨hj.rep hw hp hj.tiles (fun c hc => ?_) (fun heq => ?_) ?_ hp ?_, hw.rest⟩
  · by_cases hcp : c.start = p
    · exact .inl ⟨hcp, by rw [← hj.sizes c hc, hcp]⟩
    · exact .inr ⟨hcp, hc⟩
  · rw [← heq, hj.base_size]
  · rw [hnodes]
    refine (hpath.relink (fun a ha => hsame ?_ ?_) hw.ptr).append ⟨rfl, ?_⟩
    · rw [hnodes]
      exact List.mem_append_left _ (List.mem_append_left _ ha)
    · exact fun heq => (List.nodup_append.1 hnodup').2.2 a ha p List.mem_cons_self heq
    · have hpmem : p ∈ front ++ [p] := List.mem_append_right _ List.mem_cons_self
      have hlater {a : Uint64} (ha : a ∈ b.start :: frees post) :
          sPtr (joinPrev m p b.start) a = sPtr m a := by
        refine hsame ?_ fun heq => hapart p hpmem a ha heq.symm
        rw [hnodes]
        exact List.mem_append_right _ ha
      show Path (sPtr (joinPrev m p b.start)) (sPtr (joinPrev m p b.start) b.start)
        (frees post) h.base
      rw [hlater List.mem_cons_self]
      exact hj.back.congr fun a ha => hlater (List.mem_cons_of_mem _ ha)
  · exact hj.gaps_pre.append hj.gaps_post fun x hx _ _ => .inl (hlast x hx)

/-- The second half of `free` when it does. -/
theorem Joined.mergePrev (hj : Joined start h m (us ++ [d]) b post) (hd : d.used = false) :
    Rep start { h with mem := joinPrev m d.start b.start, freep := d.start }
      (us ++ d.join b :: post) ∧
      b.fin = (d.join b).fin ∧ Differ d.start.toNat (d.start.toNat + 16) m
        (joinPrev m d.start b.start) := by
  have hlist : us ++ [d] ++ b :: post = us ++ d :: b :: post := by simp
  have htiles := hj.tiles
  rw [hlist] at htiles
  obtain ⟨mid, htus, hdstart, hdpos, hbstart, hbpos, htpost⟩ := tiles_append.1 htiles
  have hdmem : d ∈ us ++ [d] ++ b :: post := by simp
  have hbmem : b ∈ us ++ [d] ++ b :: post := by simp
  have hdbounds := hj.tiles.bounds hdmem
  have hbbounds := hj.tiles.bounds hbmem
  have hunits := hj.units
  have htop := hj.top
  have hfin : (d.join b).fin = b.fin := Block.fin_join hbstart (by omega)
  have hnodes : h.base :: frees (us ++ [d] ++ b :: post) = (h.base :: frees us) ++ d.start ::
      b.start :: frees post := by
    rw [hlist, frees_append, frees_cons_free hd, frees_cons_free hj.free, List.cons_append]
  have hnodes' : h.base :: frees (us ++ d.join b :: post) = ((h.base :: frees us) ++ [d.start]) ++
      frees post := by
    rw [frees_append, frees_cons_free rfl, List.append_assoc, List.cons_append]
    rfl
  have hp : d.start ∈ h.base :: frees (us ++ [d] ++ b :: post) := by
    rw [hnodes]
    exact List.mem_append_right _ List.mem_cons_self
  have hadd : hdrAdd d.start (sSize m d.start) = b.start := by
    apply BitVec.eq_of_toNat_eq
    rw [hj.sizes d hdmem, toNat_hdrAdd (by rw [Block.fin] at hdbounds; omega), hbstart, Block.fin]
  set m₁ := setSize m d.start (d.size + b.size) with hm₁
  have hw₁ : Wrote m m₁ d.start (sPtr m d.start) (d.size + b.size) := Wrote.setSize (by omega)
  have hw₂ : Wrote m₁ (setPtr m₁ d.start (sPtr m b.start)) d.start (sPtr m b.start)
      (sSize m₁ d.start) :=
    Wrote.setPtr (by omega)
  rw [hw₁.size] at hw₂
  have hw := hw₁.trans hw₂
  have hcode : joinPrev m d.start b.start = setPtr m₁ d.start (sPtr m b.start) := by
    rw [joinPrev, if_pos hadd, hj.sizes d hdmem, hj.sizes b hbmem]
    show setPtr m₁ d.start (sPtr m₁ b.start) = _
    rw [(hw₁.other (b := b.start) (by omega) (by omega)).1]
  rw [hcode]
  have hnodup : ((h.base :: frees us) ++ d.start :: b.start :: frees post).Nodup := by
    rw [← hnodes]
    exact (hj.tiles.nodes_sorted hj.base_below).imp fun hab heq => by rw [heq] at hab; omega
  obtain ⟨-, hnodup', hapart⟩ := List.nodup_append.1 hnodup
  have hsame {a : Uint64} (ha : a ∈ h.base :: frees (us ++ [d] ++ b :: post)) (had : a ≠ d.start) :
      sPtr (setPtr m₁ d.start (sPtr m b.start)) a = sPtr m a := by
    have := hj.node_fits ha
    exact (hw.other (by omega) (hj.nodes_apart hp ha had.symm)).1
  obtain ⟨q, hpath⟩ := hj.front
  rw [frees_append, frees_cons_free hd, frees_nil, ← List.cons_append] at hpath
  refine ⟨hj.rep hw hp ?_ (fun c hc => ?_) (fun heq => ?_) ?_ ?_ ?_, hfin.symm, hw.rest⟩
  · refine tiles_append.2 ⟨mid, htus, hdstart, ?_, hfin ▸ htpost⟩
    rw [Block.size_join hbstart (by omega)]
    exact Nat.add_pos_left hdpos _
  · have hne {c : Block} (hc : c ∈ us ++ [d] ++ b :: post) (hcd : c ≠ d) : c.start ≠ d.start := by
      intro heq
      have hbounds := hj.tiles.bounds hc
      have := hj.tiles.apart hc hdmem hcd
      rw [heq] at this hbounds
      omega
    have hsorted := List.pairwise_append.1 htiles.sorted
    rcases List.mem_append.1 hc with hcus | hcpost
    · have hmem : c ∈ us ++ [d] ++ b :: post := by simp [hcus]
      refine .inr ⟨hne hmem ?_, hmem⟩
      rintro rfl
      have := hsorted.2.2 c hcus c List.mem_cons_self
      omega
    · rcases List.mem_cons.1 hcpost with rfl | hlater
      · exact .inl ⟨rfl, rfl⟩
      · have hmem : c ∈ us ++ [d] ++ b :: post := by simp [hlater]
        refine .inr ⟨hne hmem ?_, hmem⟩
        rintro rfl
        have := (List.pairwise_cons.1 hsorted.2.1).1 c (List.mem_cons_of_mem _ hlater)
        omega
  · have := hj.base_below
    rw [heq] at this
    omega
  · rw [hnodes']
    refine (hpath.relink (fun a ha => hsame ?_ ?_) hw.ptr).append (hj.back.congr fun a ha =>
      hsame ?_ ?_)
    · rw [hnodes]
      exact List.mem_append_left _ ha
    · exact hapart a ha d.start List.mem_cons_self
    · rw [hnodes]
      exact List.mem_append_right _ (List.mem_cons_of_mem _ (List.mem_cons_of_mem _ ha))
    · rintro rfl
      exact (List.nodup_cons.1 hnodup').1 (List.mem_cons_of_mem _ ha)
  · rw [hnodes']
    exact List.mem_append_left _ (List.mem_append_right _ List.mem_cons_self)
  · have hus := hj.gaps_pre
    rw [Gaps, List.isChain_append] at hus
    refine hus.1.append (hj.gaps_post.head hj.free.symm) fun x hx y hy => ?_
    have hxd := hus.2.2 x hx d (by simp)
    rcases hxd with hxd | hxd
    · exact .inl hxd
    · rw [hd] at hxd
      cases hxd

end JoinPrev

/-! ## The specification of `free` -/

/-- The bytes of a block are the same in both memories. -/
def Block.Same (b : Block) (m m' : Uint64 → Byte) : Prop :=
  ∀ a : Uint64, b.start.toNat ≤ a.toNat → a.toNat < b.fin → m' a = m a

/-- The blocks in use. -/
def useds (blocks : List Block) : List Block := blocks.filter fun b => b.used

theorem useds_append (bs cs : List Block) : useds (bs ++ cs) = useds bs ++ useds cs :=
  List.filter_append ..

theorem useds_cons_used {bs : List Block} (hb : b.used = true) : useds (b :: bs) = b :: useds bs :=
  List.filter_cons_of_pos hb

theorem useds_cons_free {bs : List Block} (hb : b.used = false) : useds (b :: bs) = useds bs :=
  List.filter_cons_of_neg (by simp [hb])

/-- **`free` returns**, and afterwards the block is part of a free one, the blocks in use
are the other ones that were in use, and their bytes are as they were. -/
theorem Rep.free (hr : Rep start h (pre ++ b :: post)) (hb : b.used = true) {fuel : Nat}
    (hfuel : (pre ++ b :: post).length < fuel) :
    ∃ m p blocks, SignalOS.free fuel h (b.start + HEADER) = some { h with mem := m, freep := p } ∧
      Rep start { h with mem := m, freep := p } blocks ∧
      (∃ c ∈ blocks, c.used = false ∧ c.start.toNat ≤ b.start.toNat ∧ b.fin ≤ c.fin) ∧
      useds blocks = useds (pre ++ post) ∧ blocks.length ≤ (pre ++ b :: post).length ∧
      ∀ c ∈ useds (pre ++ post), c.Same h.mem m := by
  obtain ⟨front, p, hfront⟩ : ∃ front p, h.base :: frees pre = front ++ [p] :=
    (List.eq_nil_or_concat _).resolve_left (List.cons_ne_nil _ _) |>.imp fun _ h =>
      h.imp fun _ h => by simpa using h
  obtain ⟨b', post', hj, hstart, hfin, huseds, hlen, hdiffer⟩ := hr.joinNext hb hfront
  have hbp : b.start + HEADER - HEADER = b.start := BitVec.add_sub_cancel _ _
  have hrun : SignalOS.free fuel h (b.start + HEADER)
      = some { h with
          mem := SignalOS.joinPrev (SignalOS.joinNext h.mem p b.start) p b.start
          freep := p } := by
    rw [SignalOS.free, hbp, hr.freeScan hb hfront hfuel]
    rfl
  have huseds' : useds post' = useds post := huseds
  have hp : p ∈ h.base :: frees (pre ++ b :: post) := by
    rw [frees_split hb, ← List.cons_append, hfront]
    exact List.mem_append_left _ (List.mem_append_right _ List.mem_cons_self)
  have hsame {m : Uint64 → Byte} (hm : Differ p.toNat (p.toNat + 16)
    (SignalOS.joinNext h.mem p b.start) m) (c : Block)
      (hc : c ∈ useds (pre ++ post)) : c.Same h.mem m := by
    obtain ⟨hmem, hused⟩ := List.mem_filter.1 hc
    have hmem' : c ∈ pre ++ b :: post := by
      rcases List.mem_append.1 hmem with hmem | hmem
      · exact List.mem_append_left _ hmem
      · exact List.mem_append_right _ (List.mem_cons_of_mem _ hmem)
    have hapart : c.fin ≤ b.start.toNat ∨ b.start.toNat + 16 ≤ c.start.toNat := by
      have hsorted := List.pairwise_append.1 hr.tiles.sorted
      have hbounds := hr.bounds (b := b) (List.mem_append_right _ List.mem_cons_self)
      rcases List.mem_append.1 hmem with hmem | hmem
      · exact .inl (hsorted.2.2 c hmem b List.mem_cons_self)
      · have := (List.pairwise_cons.1 hsorted.2.1).1 c hmem
        omega
    have hnode := (hr.tiles.node_apart hr.base_below hp hmem').resolve_left fun h => by
      rw [hused] at h
      exact absurd h.2 (by simp)
    intro a hlo hhi
    rw [hm a (by omega), hdiffer a (by omega)]
  have hbounds' := hj.tiles.bounds (b := b') (List.mem_append_right _ List.mem_cons_self)
  rcases exists_last_free pre with hall | ⟨us, d, vs, rfl, hd, hvs⟩
  · -- nothing in front of the block is free
    rw [frees_of_used hall] at hfront
    obtain ⟨rfl, hpbase⟩ : front = [] ∧ p = h.base := by
      cases front with
      | nil => exact ⟨rfl, by simpa using hfront.symm⟩
      | cons x xs => simp at hfront
    subst hpbase
    have hne : hdrAdd h.base (sSize (SignalOS.joinNext h.mem h.base b.start) h.base) ≠
        b'.start := by
      intro heq
      have hzero : hdrAdd h.base 0 = h.base := BitVec.add_zero _
      rw [hj.base_size, hzero] at heq
      have := hj.base_below
      rw [heq] at this
      omega
    have hfront' : h.base :: frees pre = [] ++ [h.base] := by
      rw [frees_of_used hall, List.nil_append]
    obtain ⟨hrep, hm⟩ := hj.linkPrev hfront' hne fun c hc => hall c (List.mem_of_getLast? hc)
    rw [hstart] at hrep hm
    refine ⟨_, h.base, _, hrun, hrep, ⟨b', by simp, hj.free, by rw [hstart], hfin⟩,
      ?_, by simpa using hlen,
      hsame hm⟩
    rw [useds_append, useds_cons_free hj.free, huseds', ← useds_append]
  · rw [frees_append, frees_cons_free hd, frees_of_used hvs, ← List.cons_append] at hfront
    obtain ⟨rfl, heq⟩ := List.append_inj' hfront rfl
    obtain rfl : d.start = p := by simpa using heq
    cases vs with
    | nil =>
      obtain ⟨hrep, hbfin, hm⟩ := hj.mergePrev hd
      rw [hstart] at hrep hm
      have hle : d.start.toNat ≤ b.start.toNat := by
        have := hr.before (b := b) (a := d.start) (by simp [frees_append, frees_cons_free hd])
        omega
      refine ⟨_, d.start, _, hrun, hrep, ⟨d.join b', by simp, rfl, hle, by omega⟩, ?_, ?_,
        hsame hm⟩
      · have hnil : useds [] = [] := rfl
        rw [useds_append, useds_cons_free rfl, huseds', useds_append, useds_append,
          useds_cons_free hd, hnil,
          List.append_nil]
      · simp only [List.length_append, List.length_cons]
        omega
    | cons v vs =>
      have hvmem : v ∈ us ++ d :: v :: vs := by simp
      have hdmem : d ∈ us ++ d :: v :: vs ++ b' :: post' := by simp
      have hvsorted := (List.pairwise_append.1 hj.tiles.sorted).2.2 v hvmem b' List.mem_cons_self
      have hvbounds := hj.tiles.bounds (b := v) (List.mem_append_left _ hvmem)
      have hdbounds := hj.tiles.bounds hdmem
      have hdv : d.fin ≤ v.start.toNat := by
        have hsorted := (List.pairwise_append.1 hj.tiles.sorted).1
        exact (List.pairwise_cons.1 (List.pairwise_append.1 hsorted).2.1).1 v List.mem_cons_self
      have htop := hj.top
      have hne : hdrAdd d.start (sSize (SignalOS.joinNext h.mem d.start b.start) d.start) ≠
          b'.start := by
        intro heq
        rw [hj.sizes d hdmem] at heq
        have hadd :=
          toNat_hdrAdd (a := d.start) (n := d.size) (by rw [Block.fin] at hdbounds; omega)
        rw [heq] at hadd
        rw [Block.fin] at hdv
        omega
      have hfront' : h.base :: frees (us ++ d :: v :: vs) = (h.base :: frees us) ++ [d.start] := by
        rw [frees_append, frees_cons_free hd, frees_of_used hvs]
        rfl
      obtain ⟨hrep, hm⟩ := hj.linkPrev hfront' hne fun c hc => by
        rw [List.getLast?_append_cons, List.getLast?_cons_cons] at hc
        exact hvs c (List.mem_of_getLast? hc)
      rw [hstart] at hrep hm
      refine ⟨_, d.start, _, hrun, hrep, ⟨b', by simp, hj.free, by rw [hstart], hfin⟩,
        ?_, by simpa using hlen,
      hsame hm⟩
      rw [useds_append, useds_cons_free hj.free, huseds', ← useds_append]

end SignalOS
