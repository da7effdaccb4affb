import SignalOS.Lib.Partial
import SignalOS.Vm.Mm

/-!
# The overlap check

What `vma_check_overlap` sees of the position of two ranges, and what it misses.

* `Vma.Meets` — a vma shares an address with a range; `Vma.hit` — what the check tests.
* `meets_iff` — **the check misses a vma that lies strictly inside the range**, and
  nothing else.
* `vmaCheckOverlap_exact` — when the check is exact, and the ranges of an address space
  stay apart.
-/

namespace SignalOS

open Partial

/-- Some address of the range is one of the vma. -/
def Vma.Meets (vma : Vma) (start stop : Uint64) : Prop :=
  ∃ va, start ≤ va ∧ va < stop ∧ vma.vmStart ≤ va ∧ va < vma.vmEnd

/-- An end of the range is in the vma. -/
def Vma.HasEnd (vma : Vma) (start stop : Uint64) : Prop :=
  vma.vmStart ≤ start ∧ start < vma.vmEnd ∨ vma.vmStart < stop ∧ stop ≤ vma.vmEnd

/-- The vma has addresses, and both its ends are inside the range. -/
def Vma.Inside (vma : Vma) (start stop : Uint64) : Prop :=
  start < vma.vmStart ∧ vma.vmStart < vma.vmEnd ∧ vma.vmEnd < stop

/-- The test of `vma_check_overlap` on one vma. -/
def Vma.hit (b : Vma) (start stop : Uint64) : Bool :=
  (start < b.vmEnd && start ≥ b.vmStart) || (stop > b.vmStart && stop ≤ b.vmEnd)

/-- It lets the range of `a` pass. -/
def Clear (a b : Vma) : Prop := a.vmStart = a.vmEnd ∨ b.hit a.vmStart a.vmEnd = false

instance Clear.decidable (a b : Vma) : Decidable (Clear a b) :=
  inferInstanceAs (Decidable (a.vmStart = a.vmEnd ∨ b.hit a.vmStart a.vmEnd = false))

variable {mm : Mm} {vma : Vma} {start stop exclude : Uint64}

theorem hit_iff : vma.hit start stop = true ↔ vma.HasEnd start stop := by
  simp only [Vma.hit, Vma.HasEnd, Bool.or_eq_true, Bool.and_eq_true, decide_eq_true_eq, ge_iff_le,
    gt_iff_lt]
  tauto

/-- Two ranges share an address if neither ends before the other starts. -/
theorem meets_iff_lt (h : start < stop) :
    vma.Meets start stop ↔ vma.vmStart < vma.vmEnd ∧ start < vma.vmEnd ∧ vma.vmStart < stop := by
  constructor
  · rintro ⟨va, h₁, h₂, h₃, h₄⟩
    simp only [BitVec.lt_def, BitVec.le_def] at h₁ h₂ h₃ h₄ ⊢
    omega
  · rintro ⟨h₁, h₂, h₃⟩
    -- the shared address is the later of the two starts
    by_cases hle : vma.vmStart ≤ start
    · exact ⟨start, BitVec.le_refl start, h, hle, h₂⟩
    · refine ⟨vma.vmStart, ?_, h₃, BitVec.le_refl _, h₁⟩
      rw [BitVec.le_def] at hle ⊢
      omega

/-- **What the check misses**: the range shares an address with a vma if an end of the range is in
the vma, or if the vma lies strictly inside. -/
theorem meets_iff (h : start < stop) :
    vma.Meets start stop ↔ vma.HasEnd start stop ∨ vma.Inside start stop := by
  rw [meets_iff_lt h]
  simp only [Vma.HasEnd, Vma.Inside, BitVec.lt_def, BitVec.le_def] at h ⊢
  omega

/-- The check on a range that is not empty. -/
theorem vmaCheckOverlap_iff (h : start < stop) : vmaCheckOverlap mm start stop exclude = true ↔
    ∃ vma ∈ mm.vma, vma.addr ≠ exclude ∧ vma.HasEnd start stop := by
  have hne : start ≠ stop := by
    rintro rfl
    exact BitVec.lt_irrefl _ h
  rw [vmaCheckOverlap, if_neg hne, List.any_eq_true]
  refine exists_congr fun vma => and_congr_right fun _ => ?_
  rw [Bool.and_eq_true, bne_iff_ne]
  exact and_congr_right fun _ => hit_iff

/-- Where the check fails, the range is not clear of some vma. -/
theorem not_clear_of_overlap {addr : Uint64}
    (h : vmaCheckOverlap mm vma.vmStart vma.vmEnd addr = true) :
    ∃ b ∈ mm.vma, ¬ Clear vma b := by
  rw [vmaCheckOverlap] at h
  split at h
  · exact absurd h (by simp)
  · rename_i hne
    obtain ⟨b, hb, hhit⟩ := List.any_eq_true.1 h
    rw [Bool.and_eq_true] at hhit
    refine ⟨b, hb, ?_⟩
    rintro (heq | hmiss)
    · exact hne heq
    · rw [Vma.hit, hhit.2] at hmiss
      exact absurd hmiss (by simp)

/-! ## The ranges of an address space -/

/-- No address is in both vmas. -/
def Vma.Apart (a b : Vma) : Prop :=
  ∀ va, a.vmStart ≤ va → va < a.vmEnd → b.vmStart ≤ va → ¬ va < b.vmEnd

theorem Vma.Apart.symm {a b : Vma} (h : a.Apart b) : b.Apart a :=
  fun va h₁ h₂ h₃ h₄ => h va h₃ h₄ h₁ h₂

theorem apart_iff {a b : Vma} : a.Apart b ↔ ¬ b.Meets a.vmStart a.vmEnd := by
  simp only [Vma.Apart, Vma.Meets, not_exists, not_and]

/-- What `mm_mappages` makes of the list of vmas. -/
theorem mmMappages_returns (mm : Mm) (vma : Vma) : Returns (fun r => r.2 = mm ∨
    vmaCheckOverlap mm vma.vmStart vma.vmEnd vma.addr = false ∧
      r.2 = { mm with vma := vma :: mm.vma })
    (mmMappages mm vma) := by
  refine .bind fun _ => .bind fun _ => .bind fun _ => ?_
  cases hcheck : vmaCheckOverlap mm vma.vmStart vma.vmEnd vma.addr with
  | true => exact .pure (.inl rfl)
  | false =>
    refine .bind fun ret => ?_
    split
    · exact .bind fun _ => .bind fun _ => .pure (.inl rfl)
    · exact .pure (.inr ⟨rfl, rfl⟩)

/-- The vma that `mm_remap` moves. -/
def Mm.moved (mm : Mm) (vma : Vma) (start stop pteFlags : Uint64) : Mm :=
  { mm with vma := mm.vma.map fun v =>
      if v.addr = vma.addr then { vma with vmStart := start, vmEnd := stop, pteFlags := pteFlags }
        else v }

/-- What `mm_remap` makes of the list of vmas. -/
theorem mmRemap_returns (mm : Mm) (vma : Vma) (start stop pteFlags : Uint64) :
    Returns (fun r => r.2 = mm ∨
    vmaCheckOverlap mm start stop vma.addr = false ∧ r.2 = mm.moved vma start stop pteFlags)
    (mmRemap mm vma start stop pteFlags) := by
  refine .bind fun _ => .bind fun _ => ?_
  cases hcheck : vmaCheckOverlap mm start stop vma.addr with
  | true => exact .pure (.inl rfl)
  | false =>
    refine .bind fun created => ?_
    cases created with
    | false => exact .bind fun _ => .pure (.inl rfl)
    | true =>
      refine .bind fun removed => ?_
      cases removed with
      | false => exact .pure (.inl rfl)
      | true => exact .pure (.inr ⟨rfl, rfl⟩)

/-- `mm_mappages` of a vma with this range, and `mm_remap` of a vma to it, leave the vmas of the
list apart. -/
structure KeepsApart (mm : Mm) (start stop exclude : Uint64) : Prop where
  mappages : ∀ (vma : Vma) (vm vm' : Vm) (r : Int × Mm), vma.vmStart = start → vma.vmEnd = stop →
    vma.addr = exclude → exclude ∉ mm.vma.map Vma.addr → mm.vma.Pairwise Vma.Apart →
    mmMappages mm vma vm = some (r, vm') → r.2.vma.Pairwise Vma.Apart
  remap : ∀ (vma : Vma) (flags : Uint64) (vm vm' : Vm) (r : Int × Mm), vma ∈ mm.vma →
    vma.addr = exclude →
    (mm.vma.map Vma.addr).Nodup → mm.vma.Pairwise Vma.Apart →
    mmRemap mm vma start stop flags vm = some (r, vm') → r.2.vma.Pairwise Vma.Apart

/-- The check finds every other vma that shares an address with the range, and no other. -/
def CheckExact (mm : Mm) (start stop exclude : Uint64) : Prop :=
  vmaCheckOverlap mm start stop exclude = true ↔ ∃ vma ∈ mm.vma, vma.addr ≠ exclude ∧
    vma.Meets start stop

/-- Where the check is exact, it keeps the vmas apart. -/
theorem CheckExact.keepsApart (h : CheckExact mm start stop exclude) :
    KeepsApart mm start stop exclude := by
  -- a vma that the check let pass
  have hpass (hcheck : vmaCheckOverlap mm start stop exclude = false) {b : Vma} (hb : b ∈ mm.vma)
      (hne : b.addr ≠ exclude) {a : Vma} (hstart : a.vmStart = start) (hstop : a.vmEnd = stop) :
      a.Apart b := by
    rw [apart_iff, hstart, hstop]
    intro hmeets
    have htrue := h.2 ⟨b, hb, hne, hmeets⟩
    rw [hcheck] at htrue
    exact absurd htrue (by simp)
  constructor
  case mappages =>
    rintro vma vm vm' r hstart hstop rfl hnew hapart hrun
    rcases mmMappages_returns mm vma vm r vm' hrun with hsame | ⟨hcheck, hcons⟩
    · rw [hsame]
      exact hapart
    · rw [hstart, hstop] at hcheck
      rw [hcons]
      refine List.pairwise_cons.2 ⟨fun b hb => hpass hcheck hb ?_ hstart hstop, hapart⟩
      exact fun heq => hnew (heq ▸ List.mem_map_of_mem hb)
  case remap =>
    rintro vma flags vm vm' r hmem rfl hnodup hapart hrun
    rcases mmRemap_returns mm vma start stop flags vm r vm' hrun with hsame | ⟨hcheck, hmoved⟩
    · rw [hsame]
      exact hapart
    · rw [hmoved]
      rw [List.nodup_iff_pairwise_ne, List.pairwise_map] at hnodup
      refine List.pairwise_map.2 ((hapart.and hnodup).imp_of_mem fun {a b} ha hb ⟨hab, hne⟩ => ?_)
      by_cases hva : a.addr = vma.addr
      · rw [if_pos hva, if_neg fun hvb => hne (hva.trans hvb.symm)]
        exact hpass hcheck hb (fun hvb => hne (hva.trans hvb.symm)) rfl rfl
      · rw [if_neg hva]
        by_cases hvb : b.addr = vma.addr
        · rw [if_pos hvb]
          exact (hpass hcheck ha hva rfl rfl).symm
        · rw [if_neg hvb]
          exact hab

/-- **When the check is exact**, and so keeps the vmas apart: unless the only other vmas that share
an address with the range lie strictly inside it. -/
theorem vmaCheckOverlap_exact (mm : Mm) (exclude : Uint64) (h : start < stop) :
    CheckExact mm start stop exclude ∧ KeepsApart mm start stop exclude ↔
      ((∃ vma ∈ mm.vma, vma.addr ≠ exclude ∧ vma.Inside start stop) →
        ∃ vma ∈ mm.vma, vma.addr ≠ exclude ∧ vma.HasEnd start stop) := by
  have hexact : CheckExact mm start stop exclude ↔
      ((∃ vma ∈ mm.vma, vma.addr ≠ exclude ∧ vma.Inside start stop) →
        ∃ vma ∈ mm.vma, vma.addr ≠ exclude ∧ vma.HasEnd start stop) := by
    rw [CheckExact, vmaCheckOverlap_iff h]
    simp only [meets_iff h, and_or_left, exists_or]
    exact iff_self_or
  rw [← hexact]
  exact and_iff_left_of_imp CheckExact.keepsApart

/-- A range around a vma. -/
theorem vmaCheckOverlap_exact_around :
    CheckExact ⟨1, 2, [⟨7, 0x2000, 0x3000, 0⟩], 1⟩ 0x2000 0x4000 0 ∧
    KeepsApart ⟨1, 2, [⟨7, 0x2000, 0x3000, 0⟩], 1⟩ 0x2000 0x4000 0 := by
  refine (vmaCheckOverlap_exact _ _ (by decide)).2 fun _ =>
    ⟨⟨7, 0x2000, 0x3000, 0⟩, by simp, by decide, ?_⟩
  exact .inl ⟨by decide, by decide⟩

/-- A vma of one page strictly inside a range of three. -/
theorem vmaCheckOverlap_misses : PageStart 0x1000 ∧ PageStart 0x4000 ∧
    ¬ CheckExact ⟨1, 2, [⟨7, 0x2000, 0x3000, 0⟩], 1⟩ 0x1000 0x4000 0 := by
  refine ⟨rfl, rfl, fun hexact => ?_⟩
  have htrue := hexact.2 ⟨⟨7, 0x2000, 0x3000, 0⟩, by simp, by decide, 0x2000, by decide⟩
  exact absurd htrue (by decide)

end SignalOS
