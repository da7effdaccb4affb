import Mathlib.Data.List.Nodup
import SignalOS.Lib.Runs
import SignalOS.User.Carve

/-!
# Runs of the user heap

A program that takes memory, stores to it and gives it back, in any order, with a kernel
that moves the break or has no memory left.

* `UserHeap` — the heap with what the program holds; `UserHeap.step` — one operation in a
  number of turns, `UserHeap.Ok` — what is promised about it.
* `UserHeap.Inv` — the invariant: the heap is represented by blocks, and the ones in use
  are those the program holds.
* `user_heap_sound` — **in every state of every run within the bounds of `UserHeap.Ok`** the
  blocks tile the memory obtained from the kernel, every block held has the bytes that were
  asked for, and the next operation returns without touching the bytes of the other blocks held.
-/

namespace SignalOS

open Links

/-- A process's heap and the blocks it holds: what `malloc` returned, and for what request. -/
structure UserHeap where
  heap : UHeap
  live : List (Uint64 × BitVec 32)

/-- What a program does with its heap. -/
inductive HeapOp where
  | malloc (nbytes : BitVec 32) (reply : SbrkReply)
  | free (ap : Uint64)
  /-- It stores `data` at an offset into a block it holds. -/
  | write (x : Uint64 × BitVec 32) (off : Nat) (data : List Byte)
  deriving DecidableEq

/-! ## Pointers -/

section Pointers

variable {start : Nat} {h : UHeap} {blocks : List Block} {b c : Block}

/-- Blocks with the same address are the same. -/
theorem Rep.eq_of_start (hr : Rep start h blocks) (hb : b ∈ blocks) (hc : c ∈ blocks)
    (heq : b.start = c.start) : b = c := by
  by_contra hne
  have hapart := hr.tiles.apart hb hc hne
  have hbounds := hr.bounds hb
  have hbounds' := hr.bounds hc
  rw [heq] at hapart hbounds
  omega

theorem hdr_inj {a c : Uint64} (h : a + HEADER = c + HEADER) : a = c := by
  have hsub := congrArg (fun x => x - HEADER) h
  simpa only [BitVec.add_sub_cancel] using hsub

/-- The blocks in use have different pointers. -/
theorem Rep.useds_nodup (hr : Rep start h blocks) : (useds blocks).Nodup := by
  refine List.Pairwise.filter _ (hr.tiles.sorted.imp_of_mem fun {b c} hb _ hbc heq => ?_)
  have := hr.bounds hb
  rw [← heq] at hbc
  omega

theorem Rep.pointers_nodup (hr : Rep start h blocks) :
    ((useds blocks).map fun b => b.start + HEADER).Nodup := by
  refine List.Nodup.map_on (fun b hb c hc heq => ?_) hr.useds_nodup
  exact hr.eq_of_start (List.mem_filter.1 hb).1 (List.mem_filter.1 hc).1 (hdr_inj heq)

end Pointers

/-! ## Operations -/

/-- Whether the operation is about the block. -/
def HeapOp.touches : HeapOp → Uint64 × BitVec 32 → Prop
  | .malloc _ _, _ => False
  | .free ap, x => x.1 = ap
  | .write y _ _, x => x = y

namespace UserHeap

/-- One operation, whose loops may take a number of turns; `none` if that was not enough. -/
def step (s : UserHeap) : Nat × HeapOp → Option UserHeap
  | (fuel, .malloc nbytes reply) =>
    (malloc fuel reply s.heap nbytes).map fun (r : Uint64 × UHeap) =>
      { heap := r.2, live := if r.1 = 0 then s.live else (r.1, nbytes) :: s.live }
  | (fuel, .free ap) => (free fuel s.heap ap).map fun h =>
    { heap := h, live := s.live.filter fun x => x.1 != ap }
  | (_, .write x off data) =>
    some
      { s with heap := { s.heap with mem := memmove s.heap.mem (x.1 + BitVec.ofNat 64 off) data } }

/-- What is promised: a request for memory is granted only below `2 ^ 31` bytes, while the heap
has less than `2 ^ 32` units and the break is at most `2 ^ 38`; refused ones are refused with
`ENOMEM`; and only blocks the program holds are freed and written to.  The first bound is that of
`sbrk`, which takes an `int`: the request for `malloc(0xffffffff)` comes to it as 16 bytes. -/
def Ok (start : Nat) (s : UserHeap) : HeapOp → Prop
  | .malloc nbytes reply => reply ≠ .einval ∧ (reply = .granted →
    16 * askedUnits (nunitsOf nbytes) < 2 ^ 31 ∧
    s.heap.brk.toNat + 16 * askedUnits (nunitsOf nbytes) < start + 2 ^ 36 ∧
    s.heap.brk.toNat + 16 * askedUnits (nunitsOf nbytes) ≤ 2 ^ 38)
  | .free ap => ap ∈ s.live.map Prod.fst
  | .write x off data => x ∈ s.live ∧ off + data.length ≤ x.2.toNat

instance Ok.decidable (start : Nat) (s : UserHeap) : ∀ op, Decidable (s.Ok start op)
  | .malloc _ _ => inferInstanceAs (Decidable (_ ∧ _))
  | .free _ => inferInstanceAs (Decidable (_ ∈ _))
  | .write _ _ _ => inferInstanceAs (Decidable (_ ∧ _))

/-- A process before its first call, with its break at `brk`. -/
def boot (mem : Uint64 → Byte) (base brk : Uint64) : UserHeap where
  heap := { mem, base, freep := 0, brk }
  live := []

/-- The program holds the blocks in use. -/
structure Holds (live : List (Uint64 × BitVec 32)) (blocks : List Block) : Prop where
  pointers : (live.map Prod.fst).Perm ((useds blocks).map fun b => b.start + HEADER)
  room : ∀ x ∈ live, ∀ b ∈ useds blocks, b.start + HEADER = x.1 →
    x.2.toNat + 16 ≤ 16 * b.size.toNat

/-- The invariant.  Before the first call of `malloc` the heap is as that call finds it. -/
def Inv (start : Nat) (s : UserHeap) : Prop :=
  ∃ blocks, Rep start (mallocInit s.heap) blocks ∧ Holds s.live blocks ∧
    (s.heap.freep = 0 → blocks = [])

variable {start : Nat} {s t : UserHeap} {blocks pre post : List Block} {b : Block}
  {x : Uint64 × BitVec 32}

theorem mallocInit_of_ne {h : UHeap} (hne : h.freep ≠ 0) : mallocInit h = h := if_neg hne

theorem Inv.boot (mem : Uint64 → Byte) {base brk : Uint64} (hpos : 0 < base.toNat)
    (hbelow : base.toNat + 16 ≤ brk.toNat)
    (htop : brk.toNat ≤ 2 ^ 38) : Inv brk.toNat (boot mem base brk) := by
  have hw₁ : Wrote mem (setPtr mem base base) base base (sSize mem base) := Wrote.setPtr (by omega)
  have hw₂ : Wrote (setPtr mem base base) (setSize (setPtr mem base base) base 0) base _ 0 :=
    Wrote.setSize (by omega)
  rw [hw₁.ptr] at hw₂
  have hinit : mallocInit (UserHeap.boot mem base brk).heap
      = { mem := setSize (setPtr mem base base) base 0, base, freep := base, brk } := if_pos rfl
  refine ⟨[], ?_, ⟨.nil, fun x hx => absurd hx List.not_mem_nil⟩, fun _ => rfl⟩
  rw [hinit]
  refine ⟨⟨hpos, hbelow, by show brk.toNat < _; omega, htop⟩, rfl,
    fun b hb => absurd hb List.not_mem_nil, hw₂.size, ?_,
    List.mem_cons_self, List.IsChain.nil⟩
  exact ⟨rfl, hw₂.ptr⟩

/-- The block behind a pointer that the program holds. -/
theorem Holds.block (hh : Holds s.live blocks) {ap : Uint64} (hap : ap ∈ s.live.map Prod.fst) :
    ∃ b ∈ blocks, b.used = true ∧ ap = b.start + HEADER := by
  obtain ⟨b, hb, rfl⟩ := List.mem_map.1 (hh.pointers.subset hap)
  obtain ⟨hmem, hused⟩ := List.mem_filter.1 hb
  exact ⟨b, hmem, hused, rfl⟩

/-- While the program holds a block, the free list is there. -/
theorem Inv.started (h : Inv start s) {ap : Uint64} (hap : ap ∈ s.live.map Prod.fst) :
    s.heap.freep ≠ 0 := by
  obtain ⟨blocks, -, hh, hfresh⟩ := h
  intro hzero
  obtain ⟨b, hb, -⟩ := hh.block hap
  rw [hfresh hzero] at hb
  exact absurd hb List.not_mem_nil

/-- Where the bytes of a block that the program holds are. -/
theorem Holds.inside {h : UHeap} (hr : Rep start h blocks) (hh : Holds s.live blocks)
    (hx : x ∈ s.live) :
    ∃ b ∈ useds blocks, x.1 = b.start + HEADER ∧ x.1.toNat = b.start.toNat + 16 ∧
      x.1.toNat + x.2.toNat ≤ b.fin := by
  obtain ⟨b, hb, hused, heq⟩ := hh.block (List.mem_map_of_mem hx)
  have hmem : b ∈ useds blocks := List.mem_filter.2 ⟨hb, hused⟩
  have hroom := hh.room x hx b hmem heq.symm
  have hbounds := hr.bounds hb
  have htop := hr.top
  have hstart : x.1.toNat = b.start.toNat + 16 := by
    rw [heq, BitVec.toNat_add, show HEADER.toNat = 16 from rfl]
    omega
  refine ⟨b, hmem, heq, hstart, ?_⟩
  rw [Block.fin]
  omega

/-- What one operation leaves of the blocks it is not about. -/
def Spares (s : UserHeap) (op : HeapOp) (t : UserHeap) : Prop :=
  ∀ x ∈ s.live, ¬ op.touches x → ∀ a : Uint64, x.1.toNat ≤ a.toNat →
    a.toNat < x.1.toNat + x.2.toNat →
    t.heap.mem a = s.heap.mem a

/-- The block that `malloc` returns is one more that the program holds. -/
theorem Holds.malloc {h' : UHeap} {blocks' : List Block} {new : Block} {nbytes : BitVec 32}
    (hr' : Rep start h' blocks') (hh : Holds s.live blocks) (hsize : new.size = nunitsOf nbytes)
    (hperm : (useds blocks').Perm (new :: useds blocks)) :
    Holds ((new.start + HEADER, nbytes) :: s.live) blocks' := by
  have hnew : new ∈ useds blocks' := hperm.symm.subset List.mem_cons_self
  have hfresh : new ∉ useds blocks := (List.nodup_cons.1 (hperm.nodup_iff.1 hr'.useds_nodup)).1
  refine ⟨?_, fun x hx b hb heq => ?_⟩
  · rw [List.map_cons]
    exact (hh.pointers.cons _).trans (hperm.map fun b : Block => b.start + HEADER).symm
  · have hbmem := (List.mem_filter.1 hb).1
    have hnmem := (List.mem_filter.1 hnew).1
    rcases List.mem_cons.1 hx with rfl | hlive
    · obtain rfl := hr'.eq_of_start hbmem hnmem (hdr_inj heq)
      rw [hsize, toNat_nunitsOf]
      show nbytes.toNat + 16 ≤ _
      omega
    · rcases List.mem_cons.1 (hperm.subset hb) with rfl | hold
      · -- a block held before cannot have the new block's pointer
        obtain ⟨c, hc, hptr⟩ := List.mem_map.1 (hh.pointers.subset (List.mem_map_of_mem hlive))
        have hcmem : c ∈ useds blocks' := hperm.symm.subset (List.mem_cons_of_mem _ hc)
        have hcb :=
          hr'.eq_of_start (List.mem_filter.1 hcmem).1 hbmem (hdr_inj (hptr.trans heq.symm))
        exact absurd (hcb ▸ hc) hfresh
      · exact hh.room x hlive b hold heq

/-- `malloc` returns, keeps the invariant and spares the blocks held. -/
theorem Inv.malloc {nbytes : BitVec 32} {reply : SbrkReply} (h : Inv start s)
    (hok : s.Ok start (.malloc nbytes reply)) :
    ∃ n, ∀ fuel ≥ n, ∃ t, s.step (fuel, .malloc nbytes reply) = some t ∧ Inv start t ∧
      s.Spares (.malloc nbytes reply) t := by
  have hmem (x : Uint64 × BitVec 32) (hx : x ∈ s.live) : mallocInit s.heap = s.heap :=
    mallocInit_of_ne (h.started (List.mem_map_of_mem hx))
  obtain ⟨blocks, hr, hh, -⟩ := h
  have hbrk : (mallocInit s.heap).brk = s.heap.brk := by
    rw [mallocInit]
    split <;> rfl
  have hinit : mallocInit (mallocInit s.heap) = mallocInit s.heap :=
    mallocInit_of_ne hr.freep_ne_zero
  refine ⟨2 * blocks.length + 4, fun fuel hfuel => ?_⟩
  obtain ⟨r, hrun, hcase⟩ := hr.malloc hok.1 (by rw [hbrk]; exact hok.2) hfuel
  have hstep : s.step (fuel, .malloc nbytes reply)
      = some { heap := r.2, live := if r.1 = 0 then s.live else (r.1, nbytes) :: s.live } := by
    rw [SignalOS.malloc, hinit] at hrun
    rw [step, SignalOS.malloc, hrun]
    rfl
  refine ⟨_, hstep, ?_, fun x hx _ a hlo hhi => ?_⟩
  · rcases hcase with ⟨rfl, -⟩ | ⟨blocks', new, hr', hr1, hused, hsize, -, hperm, -⟩
    · refine ⟨blocks, hinit.symm ▸ hr, hh, fun hzero => absurd hzero hr.freep_ne_zero⟩
    · have hne : r.1 ≠ 0 := by
        intro hzero
        have hnew : new ∈ blocks' := (List.mem_filter.1 (hperm.symm.subset List.mem_cons_self)).1
        have hbounds := hr'.bounds hnew
        have htop := hr'.top
        have hnat : (new.start + HEADER).toNat = new.start.toNat + 16 := by
          rw [BitVec.toNat_add, show HEADER.toNat = 16 from rfl]
          omega
        rw [← hr1, hzero] at hnat
        exact absurd hnat (by simp)
      refine ⟨blocks', ?_, ?_, fun hzero => absurd hzero hr'.freep_ne_zero⟩
      · show Rep start (mallocInit r.2) blocks'
        rwa [mallocInit_of_ne hr'.freep_ne_zero]
      · show Holds (if r.1 = 0 then s.live else (r.1, nbytes) :: s.live) blocks'
        rw [if_neg hne, hr1]
        exact hh.malloc hr' hsize hperm
  · show r.2.mem a = s.heap.mem a
    rw [← hmem x hx]
    obtain ⟨b, hb, -, hstart, hfin⟩ := hh.inside hr hx
    rcases hcase with ⟨rfl, -⟩ | ⟨_, _, -, -, -, -, -, -, hsame⟩
    · rfl
    · exact hsame b hb a (by omega) (by omega)

/-- Freeing a block takes its pointer from those that the program holds. -/
theorem Holds.free {h : UHeap} {blocks' : List Block} (hr : Rep start h (pre ++ b :: post))
    (hh : Holds s.live (pre ++ b :: post)) (hb : b.used = true) (huseds : useds blocks' = useds
    (pre ++ post)) :
    Holds (s.live.filter fun x => x.1 != b.start + HEADER) blocks' := by
  have hsplit : useds (pre ++ b :: post) = useds pre ++ b :: useds post := by
    rw [useds_append, useds_cons_used hb]
  have hnodup := hr.pointers_nodup
  rw [hsplit, List.map_append, List.map_cons] at hnodup
  obtain ⟨-, htail, hapart⟩ := List.nodup_append.1 hnodup
  have hothers : ((useds (pre ++ b :: post)).map fun b => b.start + HEADER).filter
    (· != b.start + HEADER)
      = (useds (pre ++ post)).map fun b => b.start + HEADER := by
    rw [hsplit, useds_append, List.map_append, List.map_cons, List.filter_append,
      List.filter_cons_of_neg (by simp),
      List.map_append]
    congr 1
    · refine List.filter_eq_self.2 fun a ha => bne_iff_ne.2 (hapart a ha _ List.mem_cons_self)
    · refine List.filter_eq_self.2 fun a ha => bne_iff_ne.2 ?_
      rintro rfl
      exact (List.nodup_cons.1 htail).1 ha
  refine ⟨?_, fun x hx c hc heq => ?_⟩
  · have hfilter : (s.live.filter fun x => x.1 != b.start + HEADER).map Prod.fst
        = (s.live.map Prod.fst).filter (· != b.start + HEADER) := by
      rw [List.filter_map]
      rfl
    rw [hfilter, huseds, ← hothers]
    exact hh.pointers.filter _
  · have hmem : c ∈ useds (pre ++ b :: post) := by
      rw [huseds, useds_append] at hc
      rw [hsplit]
      rcases List.mem_append.1 hc with hc | hc
      · exact List.mem_append_left _ hc
      · exact List.mem_append_right _ (List.mem_cons_of_mem _ hc)
    exact hh.room x (List.mem_filter.1 hx).1 c hmem heq

/-- `free` returns, keeps the invariant and spares the other blocks held. -/
theorem Inv.free {ap : Uint64} (h : Inv start s) (hok : s.Ok start (.free ap)) :
    ∃ n, ∀ fuel ≥ n, ∃ t, s.step (fuel, .free ap) = some t ∧ Inv start t ∧
      s.Spares (.free ap) t := by
  have hstarted := h.started hok
  obtain ⟨blocks, hr, hh, -⟩ := h
  rw [mallocInit_of_ne hstarted] at hr
  obtain ⟨b, hmem, hused, rfl⟩ := hh.block hok
  obtain ⟨pre, post, rfl⟩ := List.append_of_mem hmem
  refine ⟨(pre ++ b :: post).length + 1, fun fuel hfuel => ?_⟩
  obtain ⟨m, p, blocks', hrun, hrep, -, huseds, -, hsame⟩ := hr.free hused hfuel
  refine ⟨⟨{ s.heap with mem := m, freep := p },
    s.live.filter fun x => x.1 != b.start + HEADER⟩, ?_, ?_,
    fun x hx hne a hlo hhi => ?_⟩
  · rw [step, hrun]
    rfl
  · refine ⟨blocks', ?_, hh.free hr hused huseds, fun hzero => absurd hzero hrep.freep_ne_zero⟩
    rwa [mallocInit_of_ne hrep.freep_ne_zero]
  · obtain ⟨c, hc, hptr, hstart, hfin⟩ := hh.inside hr hx
    refine hsame c ?_ a (by omega) (by omega)
    rw [useds_append, useds_cons_used hused] at hc
    rw [useds_append]
    rcases List.mem_append.1 hc with hc | hc
    · exact List.mem_append_left _ hc
    · rcases List.mem_cons.1 hc with rfl | hc
      · exact absurd hptr hne
      · exact List.mem_append_right _ hc

/-- Storing to a block in use changes neither headers nor links. -/
theorem keep_write {h : UHeap} {m' : Uint64 → Byte} {lo hi : Nat} (hr : Rep start h blocks)
    (hb : b ∈ useds blocks)
    (hm : Differ lo hi h.mem m') (hlo : b.start.toNat + 16 ≤ lo) (hhi : hi ≤ b.fin) :
    Rep start { h with mem := m' } blocks := by
  obtain ⟨hbmem, hused⟩ := List.mem_filter.1 hb
  have hbounds := hr.bounds hbmem
  have htop := hr.top
  have hkept {a : Uint64} (ha : a.toNat + 16 ≤ lo ∨ hi ≤ a.toNat) (hfit : a.toNat + 16 ≤ 2 ^ 64) :
      sPtr m' a = sPtr h.mem a ∧ sSize m' a = sSize h.mem a := by
    have hsize := toNat_add_eight hfit
    exact ⟨hm.loadWord (by omega) (by omega), hm.loadUint (by omega) (by omega)⟩
  have hnode {a : Uint64} (ha : a ∈ h.base :: frees blocks) : sPtr m' a = sPtr h.mem a ∧
      sSize m' a = sSize h.mem a := by
    have hfit := hr.node_fits ha
    have hapart := (hr.tiles.node_apart hr.base_below ha hbmem).resolve_left fun h => by
      rw [hused] at h
      exact absurd h.2 (by simp)
    exact hkept (by omega) (by omega)
  refine ⟨⟨hr.base_pos, hr.base_below, hr.units, hr.top⟩, hr.tiles, fun c hc => ?_, ?_, ?_,
    hr.freep, hr.gaps⟩
  · show sSize m' c.start = c.size
    have hcbounds := hr.bounds hc
    by_cases hcb : c = b
    · subst hcb
      exact (hkept (by omega) (by omega)).2.trans (hr.sizes c hc)
    · have hapart := hr.tiles.apart hc hbmem hcb
      exact (hkept (by omega) (by omega)).2.trans (hr.sizes c hc)
  · exact (hnode List.mem_cons_self).2.trans hr.base_size
  · exact hr.ring.congr fun a ha => (hnode ha).1

/-- Storing to a block that the program holds keeps the invariant and spares the others. -/
theorem Inv.write {off : Nat} {data : List Byte} (h : Inv start s)
    (hok : s.Ok start (.write x off data)) (fuel : Nat) :
    ∃ t, s.step (fuel, .write x off data) = some t ∧ Inv start t ∧
      s.Spares (.write x off data) t := by
  obtain ⟨hx, hoff⟩ := hok
  have hstarted := h.started (List.mem_map_of_mem hx)
  obtain ⟨blocks, hr, hh, -⟩ := h
  rw [mallocInit_of_ne hstarted] at hr
  obtain ⟨b, hb, hptr, hstart, hfin⟩ := hh.inside hr hx
  have hbounds := hr.bounds (List.mem_filter.1 hb).1
  have htop := hr.top
  have hto : (x.1 + BitVec.ofNat 64 off).toNat = x.1.toNat + off := by
    rw [BitVec.toNat_add, BitVec.toNat_ofNat]
    omega
  have hdiffer := @Differ.memmove s.heap.mem (x.1 + BitVec.ofNat 64 off) data (by omega)
  refine ⟨_, rfl, ⟨blocks, ?_, hh, fun hzero => absurd hzero hstarted⟩,
    fun y hy hne a hlo hhi => ?_⟩
  · show Rep start (mallocInit
      { s.heap with mem := memmove s.heap.mem (x.1 + BitVec.ofNat 64 off) data }) blocks
    have hsame : ({ s.heap with mem := memmove s.heap.mem (x.1 + BitVec.ofNat 64 off) data } :
        UHeap).freep ≠ 0 :=
      hstarted
    rw [mallocInit_of_ne hsame]
    exact keep_write hr hb hdiffer (by omega) (by omega)
  · obtain ⟨c, hc, hptr', hstart', hfin'⟩ := hh.inside hr hy
    have hcb : c ≠ b := by
      rintro rfl
      have hnodup := hh.pointers.nodup_iff.2 hr.pointers_nodup
      exact hne (List.inj_on_of_nodup_map hnodup hy hx (hptr'.trans hptr.symm))
    have hapart := hr.tiles.apart (List.mem_filter.1 hc).1 (List.mem_filter.1 hb).1 hcb
    exact hdiffer a (by omega)

/-- **Every operation returns, keeps the invariant, and spares the blocks it is not
about.** -/
theorem Inv.returns {op : HeapOp} (h : Inv start s) (hok : s.Ok start op) :
    ∃ n, ∀ fuel ≥ n, ∃ t, s.step (fuel, op) = some t ∧ Inv start t ∧ s.Spares op t := by
  cases op with
  | malloc nbytes reply => exact h.malloc hok
  | free ap => exact h.free hok
  | write x off data => exact ⟨0, fun fuel _ => h.write hok fuel⟩

/-- More turns change nothing. -/
theorem step_mono {fuel fuel' : Nat} {op : HeapOp} (hstep : s.step (fuel, op) = some t)
    (hle : fuel ≤ fuel') :
    s.step (fuel', op) = some t := by
  cases op with
  | malloc nbytes reply =>
    obtain ⟨r, hrun, hdone⟩ := Option.map_eq_some_iff.1 hstep
    rw [step, malloc_mono hrun hle]
    exact congrArg some hdone
  | free ap =>
    obtain ⟨h, hrun, hdone⟩ := Option.map_eq_some_iff.1 hstep
    rw [step, free_mono hrun hle]
    exact congrArg some hdone
  | write x off data => exact hstep

theorem Inv.step {fuel : Nat} {op : HeapOp} (h : Inv start s) (hok : s.Ok start op)
    (hstep : s.step (fuel, op) = some t) :
    Inv start t := by
  obtain ⟨n, hn⟩ := h.returns hok
  obtain ⟨t', hstep', hinv, -⟩ := hn (max n fuel) (Nat.le_max_left _ _)
  rw [step_mono hstep (Nat.le_max_right n fuel)] at hstep'
  exact Option.some.inj hstep' ▸ hinv

/-- What the program relies on. -/
structure Sound (start : Nat) (s : UserHeap) (blocks : List Block) : Prop where
  /-- The blocks tile the memory obtained from the kernel. -/
  tiles : Tiles start blocks s.heap.brk.toNat
  /-- The free ones are linked in a ring through `base`, in the order of their addresses. -/
  ring : s.heap.freep = 0 ∧ blocks = [] ∨
    Path (sPtr s.heap.mem) s.heap.base (s.heap.base :: frees blocks) s.heap.base ∧
      s.heap.freep ∈ s.heap.base :: frees blocks
  sorted : (s.heap.base :: frees blocks).Pairwise fun a b => a.toNat + 16 ≤ b.toNat
  /-- No two free ones touch. -/
  gaps : Gaps blocks
  sizes : ∀ b ∈ blocks, sSize s.heap.mem b.start = b.size
  /-- The ones in use are those the program holds, with room for what it asked for. -/
  holds : Holds s.live blocks

theorem Inv.sound (h : Inv start s) : ∃ blocks, s.Sound start blocks := by
  obtain ⟨blocks, hr, hh, hfresh⟩ := h
  by_cases hzero : s.heap.freep = 0
  · obtain rfl := hfresh hzero
    have hinit : mallocInit s.heap = { s.heap with
        mem := setSize (setPtr s.heap.mem s.heap.base s.heap.base) s.heap.base 0, freep :=
          s.heap.base } := if_pos hzero
    have htiles := hr.tiles
    have hsorted := hr.nodes_sorted
    rw [hinit] at htiles hsorted
    exact ⟨[], htiles, .inl ⟨hzero, rfl⟩, hsorted, hr.gaps, fun b hb => absurd hb List.not_mem_nil,
      hh⟩
  · rw [mallocInit_of_ne hzero] at hr
    exact ⟨blocks, hr.tiles, .inr ⟨hr.ring, hr.freep⟩, hr.nodes_sorted, hr.gaps, hr.sizes, hh⟩

end UserHeap

/-- **The user heap is sound** in every run whose operations are within the bounds, and the next
such operation returns and spares the blocks it is not about. -/
theorem user_heap_sound (mem : Uint64 → Byte) {base brk : Uint64} (hpos : 0 < base.toNat)
    (hbelow : base.toNat + 16 ≤ brk.toNat) (htop : brk.toNat ≤ 2 ^ 38) (ops : List (Nat × HeapOp))
    (s : UserHeap)
    (hrun : Runs.run UserHeap.step (UserHeap.boot mem base brk) ops = some s)
    (hok : Runs.Along UserHeap.step (fun s a => s.Ok brk.toNat a.2)
    (UserHeap.boot mem base brk) ops) :
    (∃ blocks, s.Sound brk.toNat blocks) ∧
      ∀ op, s.Ok brk.toNat op → ∃ n, ∀ fuel ≥ n, ∃ t, s.step (fuel, op) = some t ∧
        s.Spares op t := by
  have hinv : UserHeap.Inv brk.toNat s :=
    Runs.run_induct (fun _ _ _ hi hok hstep => hi.step hok hstep)
      (UserHeap.Inv.boot mem hpos hbelow htop) hrun hok
  refine ⟨hinv.sound, fun op hop => ?_⟩
  obtain ⟨n, hn⟩ := hinv.returns hop
  refine ⟨n, fun fuel hfuel => ?_⟩
  obtain ⟨t, hstep, -, hspares⟩ := hn fuel hfuel
  exact ⟨t, hstep, hspares⟩

/-- A small block and a large one are taken, the small one is filled and freed, and a third
one is cut from it. -/
def threeBlocks : List (Nat × HeapOp) :=
  [(8, .malloc 40 .granted), (8, .malloc 70000 .granted),
    (8, .write (0x1ffd0, 40) 0 (List.replicate 40 1)),
    (8, .free 0x1ffd0), (8, .malloc 5 .enomem)]

theorem user_heap_sound_threeBlocks :
    ∃ s, Runs.run UserHeap.step (UserHeap.boot (fun _ => 0) 0x3000 0x10000) threeBlocks = some s ∧
      (∃ blocks, s.Sound (0x10000 : Uint64).toNat blocks) ∧
      ∀ op, s.Ok (0x10000 : Uint64).toNat op → ∃ n, ∀ fuel ≥ n, ∃ t, s.step (fuel, op) = some t ∧
        s.Spares op t := by
  have hsome : (Runs.run UserHeap.step (UserHeap.boot (fun _ => 0) 0x3000 0x10000)
      threeBlocks).isSome = true := by
    decide +kernel
  have hok : Runs.Along UserHeap.step (fun s a => s.Ok (0x10000 : Uint64).toNat a.2)
      (UserHeap.boot (fun _ => 0) 0x3000 0x10000) threeBlocks := by
    decide +kernel
  obtain ⟨s, hs⟩ := Option.isSome_iff_exists.1 hsome
  exact ⟨s, hs, user_heap_sound (fun _ => 0) (by decide) (by decide) (by decide) threeBlocks
    s hs hok⟩

end SignalOS
