import Mathlib.Data.List.Chain
import SignalOS.Lib.Links
import SignalOS.User.Malloc

/-!
# The blocks of the user heap

What the headers in a process's heap stand for.

* `Block`, `Tiles` — blocks, free ones and ones in use, and that they cover a range of
  addresses without gap or overlap.
* `frees` — the addresses of the free blocks.
* `Rep start h blocks` — **the representation invariant**: the memory obtained from
  `sbrk` is tiled by the blocks, every block has its size in its header, the free ones
  are linked in a ring through `base`, and no two of them touch.
* `Rep.nodes_sorted` — the ring is in the order of the addresses.
-/

namespace SignalOS

open Links

/-- A block of the heap: its header, its size in units, and whether it is in use. -/
structure Block where
  start : Uint64
  size : BitVec 32
  used : Bool
  deriving DecidableEq

/-- Where a block ends. -/
def Block.fin (b : Block) : Nat := b.start.toNat + 16 * b.size.toNat

/-- The blocks cover `[lo, hi)` one after the other. -/
def Tiles : Nat → List Block → Nat → Prop
  | lo, [], hi => lo = hi
  | lo, b :: bs, hi => b.start.toNat = lo ∧ 0 < b.size.toNat ∧ Tiles b.fin bs hi

/-- The addresses of the free blocks. -/
def frees (blocks : List Block) : List Uint64 := (blocks.filter fun b => !b.used).map Block.start

/-! ## Tilings -/

section Tiles

variable {lo hi : Nat} {b c : Block} {bs cs : List Block}

@[simp] theorem tiles_nil : Tiles lo [] hi ↔ lo = hi := Iff.rfl

@[simp] theorem tiles_cons : Tiles lo (b :: bs) hi ↔ b.start.toNat = lo ∧ 0 < b.size.toNat ∧
    Tiles b.fin bs hi :=
  Iff.rfl

theorem tiles_append : Tiles lo (bs ++ cs) hi ↔ ∃ mid, Tiles lo bs mid ∧ Tiles mid cs hi := by
  induction bs generalizing lo with
  | nil => simp
  | cons b bs ih => simp only [List.cons_append, tiles_cons, ih, and_assoc, exists_and_left]

theorem Tiles.le (h : Tiles lo bs hi) : lo ≤ hi := by
  induction bs generalizing lo with
  | nil => exact h.le
  | cons b bs ih =>
    obtain ⟨hstart, -, htail⟩ := h
    have := ih htail
    rw [Block.fin] at this
    omega

/-- Every block lies in the range. -/
theorem Tiles.bounds (h : Tiles lo bs hi) (hb : b ∈ bs) :
    lo ≤ b.start.toNat ∧ b.start.toNat + 16 ≤ b.fin ∧ b.fin ≤ hi := by
  obtain ⟨us, vs, rfl⟩ := List.append_of_mem hb
  obtain ⟨mid, hfront, hstart, hpos, hback⟩ := tiles_append.1 h
  have hle := hfront.le
  have hle' := hback.le
  rw [Block.fin] at hle' ⊢
  omega

/-- Earlier blocks end before later ones begin. -/
theorem Tiles.sorted (h : Tiles lo bs hi) : bs.Pairwise fun b c => b.fin ≤ c.start.toNat := by
  induction bs generalizing lo with
  | nil => exact .nil
  | cons b bs ih =>
    obtain ⟨-, -, htail⟩ := h
    exact .cons (fun c hc => (htail.bounds hc).1) (ih htail)

/-- Two blocks are apart. -/
theorem Tiles.apart (h : Tiles lo bs hi) (hb : b ∈ bs) (hc : c ∈ bs) (hne : b ≠ c) :
    b.fin ≤ c.start.toNat ∨ c.fin ≤ b.start.toNat := by
  have hsymm : Std.Symm fun b c : Block => b.fin ≤ c.start.toNat ∨ c.fin ≤ b.start.toNat :=
    ⟨fun _ _ => Or.symm⟩
  have hboth : bs.Pairwise fun b c => b.fin ≤ c.start.toNat ∨ c.fin ≤ b.start.toNat :=
    h.sorted.imp .inl
  exact hboth.forall hb hc hne

end Tiles

/-! ## Free blocks -/

section Frees

variable {b : Block} {bs cs : List Block}

@[simp] theorem frees_nil : frees [] = [] := rfl

theorem frees_append : frees (bs ++ cs) = frees bs ++ frees cs := by
  simp [frees]

theorem frees_cons_used (hb : b.used = true) : frees (b :: bs) = frees bs := by
  simp [frees, hb]

theorem frees_cons_free (hb : b.used = false) : frees (b :: bs) = b.start :: frees bs := by
  simp [frees, hb]

theorem mem_frees {a : Uint64} : a ∈ frees bs ↔ ∃ b ∈ bs, b.used = false ∧ b.start = a := by
  simp [frees, and_assoc]

theorem frees_of_used (h : ∀ b ∈ bs, b.used = true) : frees bs = [] := by
  simpa [frees] using h

/-- The last free block of a list. -/
theorem exists_last_free (bs : List Block) :
    (∀ b ∈ bs, b.used = true) ∨
      ∃ us d vs, bs = us ++ d :: vs ∧ d.used = false ∧ ∀ v ∈ vs, v.used = true := by
  induction bs with
  | nil => exact .inl fun b hb => absurd hb List.not_mem_nil
  | cons b bs ih =>
    rcases ih with hused | ⟨us, d, vs, rfl, hd, hvs⟩
    · cases hb : b.used with
      | true => exact .inl fun c hc => (List.mem_cons.1 hc).elim (fun heq => heq ▸ hb) (hused c)
      | false => exact .inr ⟨[], b, bs, rfl, hb, hused⟩
    · exact .inr ⟨b :: us, d, vs, rfl, hd, hvs⟩

end Frees

/-- Free blocks are in the order of their addresses, and behind `base`. -/
theorem Tiles.nodes_sorted {lo hi : Nat} {base : Uint64} (h : Tiles lo bs hi)
    (hbelow : base.toNat + 16 ≤ lo) :
    (base :: frees bs).Pairwise fun a b => a.toNat + 16 ≤ b.toNat := by
  refine .cons (fun a ha => ?_) ?_
  · obtain ⟨b, hb, -, rfl⟩ := mem_frees.1 ha
    have := (h.bounds hb).1
    omega
  · refine List.pairwise_map.2 ((h.sorted.imp_of_mem fun {b c} hb hc hbc => ?_).filter _)
    have := (h.bounds hb).2.1
    omega

/-- The header of a node on the ring and any block are apart, unless it is its own. -/
theorem Tiles.node_apart {lo hi : Nat} {a base : Uint64} (h : Tiles lo bs hi)
    (hbelow : base.toNat + 16 ≤ lo)
    (ha : a ∈ base :: frees bs) (hb : b ∈ bs) :
    a = b.start ∧ b.used = false ∨ a.toNat + 16 ≤ b.start.toNat ∨ b.fin ≤ a.toNat := by
  rcases List.mem_cons.1 ha with rfl | ha
  · have := (h.bounds hb).1
    exact .inr (.inl (by omega))
  · obtain ⟨c, hc, hfree, rfl⟩ := mem_frees.1 ha
    by_cases hbc : b = c
    · exact .inl ⟨hbc ▸ rfl, hbc ▸ hfree⟩
    · have hapart := h.apart hb hc hbc
      have hfin := h.bounds hc
      omega

/-! ## The representation invariant -/

/-- No two free blocks touch. -/
def Gaps (blocks : List Block) : Prop := blocks.IsChain fun b c => b.used = true ∨ c.used = true

theorem Gaps.cons_used {b : Block} {bs : List Block} (h : Gaps bs) (hb : b.used = true) :
    Gaps (b :: bs) :=
  List.IsChain.cons h fun _ _ => .inl hb

/-- Whether blocks touch depends on which of them are free. -/
theorem Gaps.head {b c : Block} {bs : List Block} (h : Gaps (b :: bs)) (hc : c.used = b.used) :
    Gaps (c :: bs) :=
  h.tail.cons fun _ hd => hc ▸ h.rel_head? hd

/-- Where the heap is: behind the static variables, below `MAXVA`, and less than `2 ^ 32`
units long. -/
structure Placed (start : Nat) (h : UHeap) : Prop where
  base_pos : 0 < h.base.toNat
  base_below : h.base.toNat + 16 ≤ start
  units : h.brk.toNat < start + 2 ^ 36
  top : h.brk.toNat ≤ 2 ^ 38

/-- **The representation invariant**: the heap from `start` to the break consists of the
blocks. -/
structure Rep (start : Nat) (h : UHeap) (blocks : List Block) : Prop extends Placed start h where
  tiles : Tiles start blocks h.brk.toNat
  sizes : ∀ b ∈ blocks, sSize h.mem b.start = b.size
  base_size : sSize h.mem h.base = 0
  ring : Path (sPtr h.mem) h.base (h.base :: frees blocks) h.base
  freep : h.freep ∈ h.base :: frees blocks
  gaps : Gaps blocks

namespace Rep

variable {start : Nat} {h : UHeap} {blocks : List Block} {a : Uint64} {b : Block}

theorem bounds (hr : Rep start h blocks) (hb : b ∈ blocks) :
    h.base.toNat + 16 ≤ b.start.toNat ∧ b.start.toNat + 16 ≤ b.fin ∧ b.fin ≤ h.brk.toNat := by
  have hbounds := hr.tiles.bounds hb
  have hbelow := hr.base_below
  omega

/-- The ring is in the order of the addresses. -/
theorem nodes_sorted (hr : Rep start h blocks) :
    (h.base :: frees blocks).Pairwise fun a b => a.toNat + 16 ≤ b.toNat :=
  hr.tiles.nodes_sorted hr.base_below

theorem nodes_nodup (hr : Rep start h blocks) : (h.base :: frees blocks).Nodup :=
  hr.nodes_sorted.imp fun hab heq => by rw [heq] at hab; omega

/-- Headers on the ring are valid addresses. -/
theorem node_fits (hr : Rep start h blocks) (ha : a ∈ h.base :: frees blocks) :
    a.toNat + 16 ≤ 2 ^ 38 := by
  have htop := hr.top
  rcases List.mem_cons.1 ha with rfl | ha
  · have := hr.base_below
    have := hr.tiles.le
    omega
  · obtain ⟨b, hb, -, rfl⟩ := mem_frees.1 ha
    have := hr.bounds hb
    omega

end Rep

end SignalOS
