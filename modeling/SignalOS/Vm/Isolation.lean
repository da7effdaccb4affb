import SignalOS.Vm.Lifetime

/-!
# Other address spaces

What an operation on the pages of one address space leaves alone in another.

* `Evolves.entryAt_eq`, `Evolves.userByte_eq` — **the mappings and the bytes of another
  address space are as they were**.
* `Evolves.apart` — the two have no page in common afterwards.
* `Good.other`, `MmWf.other` — the other one is still in good order.
-/

namespace SignalOS

section Frame

variable {own own' : Uint64 → Prop} {vm vm' : Vm} {mm : Mm} {pgt p : Uint64}

/-- The address space at `pgt` has none of these pages. -/
def Avoids (vm : Vm) (pgt : Uint64) (own : Uint64 → Prop) : Prop := ∀ p, Owns vm pgt p → ¬ own p

theorem Evolves.tables_same (h : Evolves own own' vm vm') (hgood : Good vm pgt)
    (havoids : Avoids vm pgt own)
    (x : Table) (t : Uint64) (ht : tableAt vm.pte pgt x = some t) : vm'.pte t = vm.pte t :=
  h.pte t (havoids t (.inl ⟨x, ht⟩)) (hgood.owned t (.inl ⟨x, ht⟩)).1

theorem Evolves.tableAt_eq (h : Evolves own own' vm vm') (hgood : Good vm pgt)
    (havoids : Avoids vm pgt own) :
    tableAt vm'.pte pgt = tableAt vm.pte pgt := tableAt_congr (h.tables_same hgood havoids)

/-- The mappings of another address space are as they were. -/
theorem Evolves.entryAt_eq (h : Evolves own own' vm vm') (hgood : Good vm pgt)
    (havoids : Avoids vm pgt own) :
    entryAt vm'.pte pgt = entryAt vm.pte pgt := entryAt_congr (h.tables_same hgood havoids)

theorem Evolves.owns_iff (h : Evolves own own' vm vm') (hgood : Good vm pgt)
    (havoids : Avoids vm pgt own) :
    Owns vm' pgt p ↔ Owns vm pgt p := by
  simp only [Owns, frameAt, h.tableAt_eq hgood havoids, h.entryAt_eq hgood havoids]

theorem Evolves.byte_eq {a : Uint64} (h : Evolves own own' vm vm') (hgood : Good vm pgt)
    (havoids : Avoids vm pgt own) (hown : Owns vm pgt (PGROUNDDOWN a)) : vm'.byte a = vm.byte a :=
  h.byte a (havoids _ hown) (hgood.owned _ hown).1

/-- The two have no page in common afterwards. -/
theorem Evolves.apart (h : Evolves own own' vm vm') (hgood : Good vm pgt)
    (havoids : Avoids vm pgt own) :
    Avoids vm' pgt own' := by
  intro p hp hown'
  have hp := (h.owns_iff hgood havoids).1 hp
  rcases (h.pages p).1 (.inr hown') with hfree | hown
  · exact (hgood.owned p hp).1 hfree
  · exact havoids p hp hown

/-- **Another address space is still in good order.** -/
theorem Good.other (hgood : Good vm pgt) (h : Evolves own own' vm vm')
    (havoids : Avoids vm pgt own)
    (hfree : FreeOk vm') : Good vm' pgt := by
  have htables := h.tableAt_eq hgood havoids
  have hentries := h.entryAt_eq hgood havoids
  have hframes : frameAt vm'.pte pgt = frameAt vm.pte pgt := by
    funext v
    rw [frameAt, frameAt, hentries]
  refine ⟨?_, ?_, ?_, fun x t hx ht k => ?_, ?_, hfree, fun p hp => ?_⟩
  · rw [TablesApart, htables]
    exact hgood.tables
  · rw [hframes]
    exact hgood.frames
  · rw [htables, hframes]
    exact hgood.apart
  · rw [htables] at ht
    rw [h.tables_same hgood havoids x t ht]
    exact hgood.inner x t hx ht k
  · rw [hentries]
    exact hgood.leaf
  · have hp := (h.owns_iff hgood havoids).1 hp
    obtain ⟨hout, hmanaged⟩ := hgood.owned p hp
    refine ⟨fun hin => ?_, h.static.manages hmanaged⟩
    rcases (h.pages p).1 (.inl hin) with hin | hown
    · exact hout hin
    · exact havoids p hp hown

theorem Tidy.other (htidy : Tidy vm mm) (h : Evolves own own' vm vm')
    (havoids : Avoids vm mm.pgt own)
    (hfree : FreeOk vm') : Tidy vm' mm :=
  htidy.of_entries (htidy.good.other h havoids hfree) (h.entryAt_eq htidy.good havoids)

theorem MmWf.other (hwf : MmWf vm mm) (h : Evolves own own' vm vm')
    (havoids : Avoids vm mm.pgt own)
    (hfree : FreeOk vm') : MmWf vm' mm :=
  hwf.of_entries (hwf.good.other h havoids hfree) (h.entryAt_eq hwf.good havoids)

/-- The bytes behind a user page that has a frame. -/
theorem userByte_of_frame {va : Uint64} {i : Nat} (hva : IS_USER_VA va = true)
    (hpage : PageStart va)
    (hi : i < 4096) (hframe : frameAt vm.pte mm.pgt (vpn va) = some p) (hp : p ≠ 0) :
    userByte vm mm (va + BitVec.ofNat 64 i) = some (vm.byte (p + BitVec.ofNat 64 i)) := by
  have hwalk : walkaddr vm mm va = p := by
    rw [walkaddr_frameAt hva, hframe]
    rfl
  rw [userByte_in_page hpage hi, hwalk, if_neg hp]

/-- **The bytes of another address space are as they were.** -/
theorem Evolves.userByte_eq (h : Evolves own own' vm vm') (hgood : Good vm mm.pgt)
    (havoids : Avoids vm mm.pgt own) (va : Uint64) : userByte vm' mm va = userByte vm mm va := by
  obtain ⟨i, hi, heq⟩ := exists_offset va
  have hpage := pageStart_PGROUNDDOWN va
  rw [heq, userByte_in_page hpage hi, userByte_in_page hpage hi]
  cases huser : IS_USER_VA (PGROUNDDOWN va) with
  | false => rw [walkaddr_of_not_user huser, walkaddr_of_not_user huser, if_pos rfl, if_pos rfl]
  | true =>
    have hframes : frameAt vm'.pte mm.pgt (vpn (PGROUNDDOWN va)) = frameAt vm.pte mm.pgt
        (vpn (PGROUNDDOWN va)) := by
      rw [frameAt, frameAt, h.entryAt_eq hgood havoids]
    rw [walkaddr_frameAt huser, walkaddr_frameAt huser, hframes]
    cases hframe : frameAt vm.pte mm.pgt (vpn (PGROUNDDOWN va)) with
    | none => rfl
    | some p =>
      have hown : Owns vm mm.pgt p := .inr ⟨_, hframe⟩
      have hstart := (hgood.owned p hown).2.start
      have hbyte : vm'.byte (p + BitVec.ofNat 64 i) = vm.byte (p + BitVec.ofNat 64 i) := by
        refine h.byte_eq hgood havoids ?_
        rw [PGROUNDDOWN_add hstart hi]
        exact hown
      rw [Option.getD_some, hbyte]

end Frame

/-! ## Stores to a page -/

/-- A store inside a page changes bytes of that page. -/
theorem memmove_page {m : Uint64 → Byte} {p a : Uint64} {off : Nat} {src : List Byte}
    (hp : PageStart p)
    (hfit : off + src.length ≤ 4096) (h : PGROUNDDOWN a ≠ p) :
    memmove m (p + BitVec.ofNat 64 off) src a = m a := by
  refine if_neg fun hlt => h ?_
  have hsum : p + BitVec.ofNat 64 off + BitVec.ofNat 64 (a - (p + BitVec.ofNat 64 off)).toNat =
      a :=
    add_toNat_sub
  rw [← hsum, BitVec.add_assoc, ← BitVec.ofNat_add, PGROUNDDOWN_add hp (by omega)]

end SignalOS
