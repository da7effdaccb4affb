import SignalOS.Vm.Copy

/-!
# The contents of user pages

What stores to the frames of an address space change, in terms of its user addresses.

* `memset_eq` — `memset` is a store of equal bytes.
* `Rewrites mm W vm vm'` — only bytes behind the user addresses `W` were changed.
* `store_rewrites`, `userByte_store` — **a store inside the frame of a user page** changes
  the bytes at its addresses, and no others.
-/

namespace SignalOS

open Partial

variable {vm vm' vm'' : Vm} {mm : Mm} {page p va : Uint64} {off : Nat} {src : List Byte}
  {W W' : Uint64 → Prop}

/-- `memset` is a store of equal bytes. -/
theorem memset_eq (m : Uint64 → Byte) (pa : Uint64) (c : Byte) (n : Uint64) :
    memset m pa c n = memmove m pa (List.replicate n.toNat c) := by
  funext a
  rw [memset, memmove, List.length_replicate]
  by_cases hlt : a - pa < n
  · rw [if_pos hlt, if_pos (BitVec.lt_def.1 hlt), List.getD_eq_getElem?_getD,
      List.getElem?_replicate_of_lt (BitVec.lt_def.1 hlt), Option.getD_some]
  · rw [if_neg hlt, if_neg fun h => hlt (BitVec.lt_def.2 h)]

theorem setBytes_run (pa : Uint64) (c : Byte) (n : Uint64) (vm : Vm) :
    setBytes pa c n vm = some ((), vm.store pa (List.replicate n.toNat c)) := by
  rw [Vm.store, ← memset_eq]
  rfl

/-! ## Changes of bytes -/

/-- Only bytes of user pages were changed, and of these only the ones at the addresses `W`. -/
structure Rewrites (mm : Mm) (W : Uint64 → Prop) (vm vm' : Vm) : Prop where
  frame : ∃ b, vm' = { vm with byte := b }
  outside : ∀ a, (∀ v, frameAt vm.pte mm.pgt v ≠ some (PGROUNDDOWN a)) → vm'.byte a = vm.byte a
  kept : ∀ va, ¬ W va → userByte vm' mm va = userByte vm mm va

namespace Rewrites

theorem refl (mm : Mm) (W : Uint64 → Prop) (vm : Vm) : Rewrites mm W vm vm :=
  ⟨⟨vm.byte, rfl⟩, fun _ _ => rfl, fun _ _ => rfl⟩

theorem pte (h : Rewrites mm W vm vm') : vm'.pte = vm.pte := by
  obtain ⟨b, rfl⟩ := h.frame
  rfl

theorem freelist (h : Rewrites mm W vm vm') : vm'.freelist = vm.freelist := by
  obtain ⟨b, rfl⟩ := h.frame
  rfl

theorem static (h : Rewrites mm W vm vm') : Static vm vm' := by
  obtain ⟨b, rfl⟩ := h.frame
  exact ⟨rfl, rfl, rfl, rfl⟩

theorem pools (h : Rewrites mm W vm vm') : SamePools vm vm' := by
  obtain ⟨b, rfl⟩ := h.frame
  exact ⟨rfl, rfl⟩

theorem mono (h : Rewrites mm W vm vm') (hsub : ∀ va, W va → W' va) : Rewrites mm W' vm vm' :=
  ⟨h.frame, h.outside, fun va hva => h.kept va fun hW => hva (hsub va hW)⟩

theorem trans (h : Rewrites mm W vm vm') (h' : Rewrites mm W vm' vm'') :
    Rewrites mm W vm vm'' := by
  obtain ⟨b, rfl⟩ := h.frame
  obtain ⟨b', rfl⟩ := h'.frame
  exact ⟨⟨b', rfl⟩, fun a ha => (h'.outside a ha).trans (h.outside a ha),
    fun va hva => (h'.kept va hva).trans (h.kept va hva)⟩

theorem good (h : Rewrites mm W vm vm') (hgood : Good vm mm.pgt) : Good vm' mm.pgt :=
  hgood.of_same h.pte h.freelist fun _ => h.static.manages

theorem wf (h : Rewrites mm W vm vm') (hwf : MmWf vm mm) : MmWf vm' mm :=
  hwf.of_entries (h.good hwf.good) (by rw [h.pte])

theorem owns {q : Uint64} (h : Rewrites mm W vm vm') : Owns vm' mm.pgt q ↔ Owns vm mm.pgt q := by
  rw [Owns, Owns, h.pte]

theorem evolves (h : Rewrites mm W vm vm') :
    Evolves (Owns vm mm.pgt) (Owns vm' mm.pgt) vm vm' := by
  refine ⟨fun t _ _ => by rw [h.pte], fun a hown _ => h.outside a fun v hv => hown (.inr ⟨v, hv⟩),
    fun q => ?_,
    h.static⟩
  rw [h.freelist, h.owns]

end Rewrites

/-! ## A store inside a page -/

theorem walkaddr_of_frame (huser : IS_USER_VA va = true)
    (hframe : frameAt vm.pte mm.pgt (vpn va) = some p) :
    walkaddr vm mm va = p := by
  rw [walkaddr_frameAt huser, hframe]
  rfl

/-- A byte that lies in another page or outside the store is as it was. -/
theorem memmove_outside {m : Uint64 → Byte} {i : Nat} (hfit : off + src.length ≤ 4096)
    (hi : i < 4096) (hout : i < off ∨ off + src.length ≤ i) :
    memmove m (p + BitVec.ofNat 64 off) src (p + BitVec.ofNat 64 i) =
      m (p + BitVec.ofNat 64 i) := by
  refine memmove_of_le ?_
  have hsub : p + BitVec.ofNat 64 i - (p + BitVec.ofNat 64 off) = BitVec.ofNat 64 i -
      BitVec.ofNat 64 off := by
    grind
  rw [hsub, BitVec.toNat_sub, BitVec.toNat_ofNat, BitVec.toNat_ofNat]
  omega

section Store

variable (hgood : Good vm mm.pgt) (hpage : PageStart page) (huser : IS_USER_VA page = true)
  (hframe : frameAt vm.pte mm.pgt (vpn page) = some p) (hfit : off + src.length ≤ 4096)

include hgood hpage huser hframe hfit

/-- The bytes at the addresses of the store. -/
theorem userByte_store {i : Nat} (hi : i < src.length) :
    userByte (vm.store (p + BitVec.ofNat 64 off) src) mm (page + BitVec.ofNat 64 (off + i)) =
      some src[i] := by
  have hp := (hgood.owned p (.inr ⟨_, hframe⟩)).2
  have hframe' : frameAt (vm.store (p + BitVec.ofNat 64 off) src).pte mm.pgt (vpn page) = some p :=
    hframe
  rw [userByte_of_frame huser hpage (by omega) hframe' hp.ne_zero, Vm.store_byte, BitVec.ofNat_add,
    ← BitVec.add_assoc,
    memmove_offset hi (by omega)]

/-- **A store inside the frame of a user page.** -/
theorem store_rewrites : Rewrites mm
    (fun va => ∃ i, off ≤ i ∧ i < off + src.length ∧ va = page + BitVec.ofNat 64 i) vm
    (vm.store (p + BitVec.ofNat 64 off) src) := by
  have hp := (hgood.owned p (.inr ⟨_, hframe⟩)).2
  refine ⟨⟨_, rfl⟩, fun a ha => ?_, fun va hva => ?_⟩
  · refine memmove_page hp.start hfit fun heq => ?_
    exact ha (vpn page) (heq ▸ hframe)
  · obtain ⟨i, hi, heq⟩ := exists_offset va
    have hstart := pageStart_PGROUNDDOWN va
    rw [heq, userByte_in_page hstart hi, userByte_in_page hstart hi,
      walkaddr_congr (Vm.store_pte _ _ _)]
    split
    · rfl
    rename_i hne
    congr 1
    cases huser' : IS_USER_VA (PGROUNDDOWN va) with
    | false => exact absurd (walkaddr_of_not_user huser') hne
    | true =>
      by_cases hsame : PGROUNDDOWN va = page
      · -- in the page, beside the store
        rw [hsame, walkaddr_of_frame huser hframe, Vm.store_byte]
        refine memmove_outside hfit hi ?_
        by_contra hin
        exact hva ⟨i, by omega, by omega, by rw [← hsame]; exact heq⟩
      · cases hframe' : frameAt vm.pte mm.pgt (vpn (PGROUNDDOWN va)) with
        | none =>
          rw [walkaddr_frameAt huser', hframe'] at hne
          exact absurd rfl hne
        | some q =>
          have hq := (hgood.owned q (.inr ⟨_, hframe'⟩)).2
          rw [walkaddr_of_frame huser' hframe', Vm.store_byte]
          refine memmove_page hp.start hfit ?_
          rw [PGROUNDDOWN_add hq.start hi]
          rintro rfl
          exact hsame (vpn_inj huser' huser hstart hpage (hgood.frames _ _ _ hframe' hframe))

end Store

/-! ## Mapping more pages -/

/-- The page of a byte that the user can read. -/
theorem frame_of_userByte (h : userByte vm mm va ≠ none) :
    IS_USER_VA (PGROUNDDOWN va) = true ∧ ∃ p, frameAt vm.pte mm.pgt (vpn (PGROUNDDOWN va)) =
      some p ∧ p ≠ 0 := by
  have hpa : walkaddr vm mm (PGROUNDDOWN va) ≠ 0 :=
    fun hzero => h (by simp [userByte, userPa, hzero])
  cases huser : IS_USER_VA (PGROUNDDOWN va) with
  | false => exact absurd (walkaddr_of_not_user huser) hpa
  | true =>
    rw [walkaddr_frameAt huser] at hpa
    refine ⟨rfl, ?_⟩
    cases hframe : frameAt vm.pte mm.pgt (vpn (PGROUNDDOWN va)) with
    | none =>
      rw [hframe] at hpa
      exact absurd rfl hpa
    | some p =>
      rw [hframe] at hpa
      exact ⟨p, rfl, hpa⟩

/-- **Mapping a vma leaves the other user pages alone.** -/
theorem mapped_kept {vma : Vma} {E' : Vpn → Uint64} (hgood : Good vm mm.pgt)
    (hbecomes : Becomes mm.pgt E' vm vm')
    (hmaps : Maps vma.pteFlags vma.pages (entryAt vm.pte mm.pgt) E') (htakes : OnlyTakes vm vm')
    (hva : userByte vm mm va ≠ none) : userByte vm' mm va = userByte vm mm va := by
  obtain ⟨huser, p, hframe, hp⟩ := frame_of_userByte hva
  obtain ⟨i, hi, heq⟩ := exists_offset va
  have hpage := pageStart_PGROUNDDOWN va
  have howned := hgood.owned p (.inr ⟨_, hframe⟩)
  have hold : ¬ Covers vma.pages (vpn (PGROUNDDOWN va)) := by
    intro hcov
    rw [frameAt, (hmaps.new _ hcov).1] at hframe
    cases frameOf_zero.symm.trans hframe
  have hframe' : frameAt vm'.pte mm.pgt (vpn (PGROUNDDOWN va)) = some p := by
    rw [frameAt, hbecomes.entries, hmaps.old _ hold]
    exact hframe
  rw [heq, userByte_of_frame huser hpage hi hframe hp, userByte_of_frame huser hpage hi hframe' hp]
  congr 1
  refine htakes.byte_eq hgood.free ?_
  rw [PGROUNDDOWN_add howned.2.start hi]
  exact howned.1

end SignalOS
