import Mathlib.Data.List.Nodup

/-!
# Nested activations

A process that interrupts itself: each activation is entered for a key that is
not blocked, blocks its key and some more while it is active, remembers the mask
and the stack pointer it interrupted, and keeps a frame below that stack pointer.

* `Masking` — masks, with the one operation an activation performs on entry.
* `Nested` — the stacks of activations that entering and leaving in last-in
  first-out order can build, with the mask and the stack pointer they leave.
* `Nested.keys_nodup` — **no key is active twice**.
* `Nested.mem_mask` — what the active activations block is in the mask.
* `Nested.frames_disjoint` — **their frames are pairwise disjoint**.
* `Nested.leave` — leaving restores the mask and the stack pointer.
-/

namespace Nesting

/-- Masks `M` over keys `K`: membership, and the mask after an activation was entered for a
key that blocks the mask `added` in addition. -/
structure Masking (K M : Type*) where
  mem : K → M → Prop
  enter : M → K → M → M
  mem_enter : ∀ m k added x, mem x (enter m k added) ↔ mem x m ∨ mem x added ∨ x = k

/-- How an activation record is read. -/
structure Layout (F K M : Type*) where
  key : F → K
  added : F → M
  /-- The mask that was interrupted. -/
  saved : F → M
  /-- The stack pointer that was interrupted. -/
  sp : F → Nat
  /-- The frame: its lowest address, and the one after its highest. -/
  bottom : F → Nat
  top : F → Nat

variable {F K M : Type*} (ma : Masking K M) (la : Layout F K M)

/-- The stacks of activations, the innermost first, that can be active when the mask is `m`
and the stack pointer is `sp`; `base` is the mask without any of them. -/
inductive Nested (base : M) : M → Nat → List F → Prop
  | nil (sp : Nat) : Nested base base sp []
  | enter {m : M} {sp sp' : Nat} {f : F} {rest : List F} (hrest : Nested base m sp rest)
      (hfree : ¬ ma.mem (la.key f) m) (hsaved : la.saved f = m) (hsp : la.sp f = sp)
      (hbelow : la.top f ≤ sp) (hframe : la.bottom f ≤ la.top f) (hsp' : sp' ≤ la.bottom f) :
      Nested base (ma.enter m (la.key f) (la.added f)) sp' (f :: rest)

namespace Nested

variable {ma la} {base m : M} {sp sp' : Nat} {f g : F} {rest fs : List F}

/-- What the active activations block is in the mask. -/
theorem mem_mask (h : Nested ma la base m sp fs) (hf : f ∈ fs) :
    ma.mem (la.key f) m ∧ ∀ x, ma.mem x (la.added f) → ma.mem x m := by
  induction h with
  | nil => exact absurd hf List.not_mem_nil
  | enter hrest _ _ _ _ _ _ ih =>
    rcases List.mem_cons.1 hf with rfl | hf
    · exact ⟨(ma.mem_enter _ _ _ _).2 (.inr (.inr rfl)),
        fun x hx => (ma.mem_enter _ _ _ _).2 (.inr (.inl hx))⟩
    · obtain ⟨hkey, hadded⟩ := ih hf
      exact ⟨(ma.mem_enter _ _ _ _).2 (.inl hkey),
        fun x hx => (ma.mem_enter _ _ _ _).2 (.inl (hadded x hx))⟩

/-- **No key is active twice.** -/
theorem keys_nodup (h : Nested ma la base m sp fs) : (fs.map la.key).Nodup := by
  induction h with
  | nil => exact List.nodup_nil
  | enter hrest hfree _ _ _ _ _ ih =>
    rw [List.map_cons, List.nodup_cons]
    refine ⟨fun hmem => ?_, ih⟩
    obtain ⟨g, hg, hkey⟩ := List.mem_map.1 hmem
    exact hfree (hkey ▸ (hrest.mem_mask hg).1)

/-- Every frame is below the stack pointer it interrupted and not below the present one. -/
theorem frame_bounds (h : Nested ma la base m sp fs) (hf : f ∈ fs) :
    sp ≤ la.bottom f ∧ la.bottom f ≤ la.top f ∧ la.top f ≤ la.sp f := by
  induction h with
  | nil => exact absurd hf List.not_mem_nil
  | enter hrest _ _ hsp hbelow hframe hsp' ih =>
    rcases List.mem_cons.1 hf with rfl | hf
    · exact ⟨hsp', hframe, hsp.symm ▸ hbelow⟩
    · obtain ⟨hbottom, hle, htop⟩ := ih hf
      exact ⟨by omega, hle, htop⟩

/-- **The frames are pairwise disjoint**: an inner one ends where an outer one has not begun. -/
theorem frames_disjoint (h : Nested ma la base m sp fs) :
    fs.Pairwise fun f g => la.top f ≤ la.bottom g := by
  induction h with
  | nil => exact List.Pairwise.nil
  | enter hrest _ _ _ hbelow _ _ ih =>
    exact List.Pairwise.cons (fun g hg => Nat.le_trans hbelow (hrest.frame_bounds hg).1) ih

/-- Inside an activation the stack pointer may move as long as it stays below the frame. -/
theorem move (h : Nested ma la base m sp fs) (hsp : ∀ f rest, fs = f :: rest → sp' ≤ la.bottom f) :
    Nested ma la base m sp' fs := by
  cases h with
  | nil => exact .nil sp'
  | enter hrest hfree hsaved hsp₀ hbelow hframe _ =>
    exact .enter hrest hfree hsaved hsp₀ hbelow hframe (hsp _ _ rfl)

/-- **Leaving the innermost activation** restores the mask and the stack pointer. -/
theorem leave (h : Nested ma la base m sp (f :: rest)) :
    Nested ma la base (la.saved f) (la.sp f) rest := by
  cases h with
  | enter hrest _ hsaved hsp _ _ _ => exact hsaved.symm ▸ hsp.symm ▸ hrest

theorem mask_eq_base (h : Nested ma la base m sp []) : m = base := by
  cases h
  rfl

end Nested

end Nesting
