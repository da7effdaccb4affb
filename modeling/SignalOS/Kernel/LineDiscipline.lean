import SignalOS.Kernel.Syscall
import SignalOS.Lib.Runs
import SignalOS.Signal.Delivery
import SignalOS.Vm.Bytewise

/-!
# The console's line discipline

`consintr` and `user_console_read` share a ring of 128 bytes with three free-running
indices.  The abstract view is a line editor: the bytes that were committed, how many
of them the readers have used up, and the line that is being edited.

* `Editor`, `Editor.key`, `taking` — **the line editor**: what a key does to it, and
  what a read takes from the bytes that were committed.
* `Represents` — the ring holds the editor's bytes.
* `Represents.consintr`, `consoleReadLoop_taking` — **the ring refines the editor**.
* `Console`, `consoleStep` — keys and reads in any order.
* `console_line_discipline` — **the indices stay in order and the reads return what
  was committed**.
-/

namespace SignalOS

open Runs

/-! ## The line editor -/

/-- The line editor: the bytes committed so far, how many of them were used up by readers, and the
line being edited. -/
structure Editor where
  committed : List Byte
  taken : Nat
  pending : List Byte

def Editor.empty : Editor := ⟨[], 0, []⟩

/-- The committed bytes that no reader has used up. -/
def Editor.unread (ed : Editor) : List Byte := ed.committed.drop ed.taken

/-- How many bytes the editor keeps. -/
def Editor.outstanding (ed : Editor) : Nat := ed.unread.length + ed.pending.length

/-- A byte for the line; it ends the line, or commits it because there is no room for more. -/
def Editor.type (ed : Editor) (c : Byte) : Editor :=
  if c = newline ∨ c = C 'D' ∨ ed.outstanding + 1 = INPUT_BUF_SIZE then
    { ed with committed := ed.committed ++ (ed.pending ++ [c]), pending := [] }
  else { ed with pending := ed.pending ++ [c] }

/-- A key: `^U` and `DEL` erase in the line only, `\r` ends a line as `\n` does, and a byte for
which there is no room is dropped. -/
def Editor.key (ed : Editor) (c : Byte) : Editor :=
  if c = C 'P' ∨ c = C 'Q' then ed
  else if c = C 'U' then { ed with pending := [] }
  else if c = 0x7f then { ed with pending := ed.pending.dropLast }
  else if c ≠ 0 ∧ ed.outstanding < INPUT_BUF_SIZE then ed.type (if c = 13 then newline else c)
  else ed

/-- What a read takes: the bytes it returns, how many committed bytes it uses up, and whether it
comes to its end. -/
structure Taking where
  bytes : List Byte
  used : Nat
  ends : Bool
  deriving DecidableEq

/-- A read that has room for `n` of `target` bytes.  It ends with a newline; a `^D` ends it too
and is used up only by a read that has nothing to return. -/
def taking (target : Nat) : Nat → List Byte → Taking
  | 0, _ => ⟨[], 0, true⟩
  | _ + 1, [] => ⟨[], 0, false⟩
  | n + 1, c :: unread =>
    if c = C 'D' then ⟨[], if n + 1 < target then 0 else 1, true⟩
    else if c = newline then ⟨[c], 1, true⟩
    else
      let rest := taking target n unread
      ⟨c :: rest.bytes, rest.used + 1, rest.ends⟩

def Editor.take (ed : Editor) (used : Nat) : Editor := { ed with taken := ed.taken + used }

theorem Editor.take_take (ed : Editor) (used later : Nat) :
    (ed.take used).take later = ed.take (later + used) := by
  simp [Editor.take, Nat.add_comm, Nat.add_left_comm]

example : taking 10 10 [0x61, 0x62, 10, 0x63] = ⟨[0x61, 0x62, 10], 3, true⟩ := by decide

/-- A read uses up bytes that were committed. -/
theorem taking_used_le (target n : Nat) (unread : List Byte) :
    (taking target n unread).used ≤ unread.length := by
  induction unread generalizing n with
  | nil => cases n <;> simp [taking]
  | cons c unread ih =>
    cases n with
    | zero => simp [taking]
    | succ n =>
      rw [taking]
      split_ifs
      · simp
      · simp
      · simp
      · exact Nat.succ_le_succ (ih n)

/-- **A read returns the bytes it uses up, without `^D`.** -/
theorem taking_bytes (target n : Nat) (unread : List Byte) :
    (taking target n unread).bytes =
      (unread.take (taking target n unread).used).filter (· ≠ C 'D') := by
  induction unread generalizing n with
  | nil => cases n <;> rfl
  | cons c unread ih =>
    cases n with
    | zero => rfl
    | succ n =>
      rw [taking]
      split_ifs with heof hmore hline
      · rfl
      · simp [heof]
      · simp [heof]
      · simp [heof, ih n]

theorem taking_length_le (target n : Nat) (unread : List Byte) :
    (taking target n unread).bytes.length ≤ n := by
  induction unread generalizing n with
  | nil => cases n <;> simp [taking]
  | cons c unread ih =>
    cases n with
    | zero => simp [taking]
    | succ n =>
      rw [taking]
      split
      · simp
      split
      · simp
      · exact Nat.succ_le_succ (ih n)

/-! ## The ring -/

/-- The ring holds the bytes of the editor: those not read yet from `r` to `w`, the line being
edited from `w` to `e`. -/
structure Represents (cons : Cons) (ed : Editor) : Prop where
  taken : ed.taken ≤ ed.committed.length
  w : cons.w = cons.r + BitVec.ofNat 32 ed.unread.length
  e : cons.e = cons.w + BitVec.ofNat 32 ed.pending.length
  room : ed.outstanding ≤ INPUT_BUF_SIZE
  full : ed.outstanding = INPUT_BUF_SIZE → ed.pending = []
  /-- What ends a line commits it. -/
  line : ∀ c ∈ ed.pending, c ≠ newline ∧ c ≠ C 'D'
  bytes : ∀ j < ed.outstanding,
    cons.buf (ringIndex (cons.r + BitVec.ofNat 32 j)) = (ed.unread ++ ed.pending).getD j 0

theorem Represents.zero : Represents Cons.zero Editor.empty where
  taken := le_rfl
  w := rfl
  e := rfl
  room := by decide
  full := by decide
  line := by simp [Editor.empty]
  bytes := fun j hj => absurd hj (Nat.not_lt_zero j)

/-- Places of the ring less than its size apart are different. -/
theorem ringIndex_ne {r : BitVec 32} {i j : Nat} (hij : i < j) (hj : j < INPUT_BUF_SIZE) :
    ringIndex (r + BitVec.ofNat 32 i) ≠ ringIndex (r + BitVec.ofNat 32 j) := by
  have hsize : INPUT_BUF_SIZE = 128 := rfl
  intro heq
  have heq := congrArg Fin.val heq
  simp only [ringIndex, BitVec.toNat_add, BitVec.toNat_ofNat] at heq
  omega

section Represents

variable {cons : Cons} {ed : Editor} {c : Byte}

theorem Represents.outstanding_eq (h : Represents cons ed) :
    (cons.e - cons.r).toNat = ed.outstanding := by
  have hroom := h.room
  have hsub : cons.e - cons.r = BitVec.ofNat 32 ed.outstanding := by
    rw [h.e, h.w, Editor.outstanding, BitVec.ofNat_add]
    grind
  have hsize : INPUT_BUF_SIZE = 128 := rfl
  rw [hsub, BitVec.toNat_ofNat]
  omega

theorem Represents.unread_eq (h : Represents cons ed) :
    (cons.w - cons.r).toNat = ed.unread.length := by
  have hroom := h.room
  have hsub : cons.w - cons.r = BitVec.ofNat 32 ed.unread.length := by
    rw [h.w]
    grind
  have hsize : INPUT_BUF_SIZE = 128 := rfl
  rw [hsub, BitVec.toNat_ofNat]
  unfold Editor.outstanding at hroom
  omega

theorem Represents.pending_eq (h : Represents cons ed) :
    (cons.e - cons.w).toNat = ed.pending.length := by
  have hroom := h.room
  have hsub : cons.e - cons.w = BitVec.ofNat 32 ed.pending.length := by
    rw [h.e]
    grind
  have hsize : INPUT_BUF_SIZE = 128 := rfl
  rw [hsub, BitVec.toNat_ofNat]
  unfold Editor.outstanding at hroom
  omega

theorem Represents.e_eq_w (h : Represents cons ed) : cons.e = cons.w ↔ ed.pending = [] := by
  rw [← List.length_eq_zero_iff, ← h.pending_eq]
  constructor
  · intro heq
    rw [heq, BitVec.sub_self]
    rfl
  · intro hzero
    have hsub : cons.e - cons.w = 0 := BitVec.eq_of_toNat_eq hzero
    grind

theorem Represents.r_eq_w (h : Represents cons ed) : cons.r = cons.w ↔ ed.unread = [] := by
  rw [← List.length_eq_zero_iff, ← h.unread_eq]
  constructor
  · intro heq
    rw [heq, BitVec.sub_self]
    rfl
  · intro hzero
    have hsub : cons.w - cons.r = 0 := BitVec.eq_of_toNat_eq hzero
    grind

/-! ### Keys -/

/-- Erasing the last byte of the line. -/
theorem Represents.erase (h : Represents cons ed) (hne : ed.pending ≠ []) :
    Represents { cons with e := cons.e - 1 } { ed with pending := ed.pending.dropLast } := by
  have hlen : ed.pending.dropLast.length + 1 = ed.pending.length := by
    rw [List.length_dropLast]
    have := List.length_pos_iff.2 hne
    omega
  have hout : ed.outstanding = ed.unread.length + ed.pending.length := rfl
  refine ⟨h.taken, h.w, ?_, ?_, fun hfull => ?_, fun c hc => h.line c (List.dropLast_subset _ hc),
    ?_⟩
  · show cons.e - 1 = cons.w + BitVec.ofNat 32 ed.pending.dropLast.length
    rw [h.e, ← hlen, BitVec.ofNat_add]
    grind
  · have := h.room
    show ed.unread.length + ed.pending.dropLast.length ≤ INPUT_BUF_SIZE
    omega
  · have hfull : ed.unread.length + ed.pending.dropLast.length = INPUT_BUF_SIZE := hfull
    have := h.room
    omega
  · intro j hj
    have hj : j < ed.unread.length + ed.pending.dropLast.length := hj
    show cons.buf _ = (ed.unread ++ ed.pending.dropLast).getD j 0
    rw [h.bytes j (by omega), ← List.dropLast_append_of_ne_nil hne, List.getD_eq_getElem?_getD,
      List.getD_eq_getElem?_getD, List.getElem?_dropLast, if_pos]
    rw [List.length_append]
    omega

/-- The last byte of the line is the one before `e`. -/
theorem Represents.last (h : Represents cons ed) (hne : ed.pending ≠ []) :
    cons.buf (ringIndex (cons.e - 1)) ∈ ed.pending := by
  have hpos := List.length_pos_iff.2 hne
  have hout : ed.outstanding = ed.unread.length + ed.pending.length := rfl
  have he : cons.e - 1 = cons.r + BitVec.ofNat 32
      (ed.unread.length + (ed.pending.length - 1)) := by
    have hlen : ed.pending.length = ed.pending.length - 1 + 1 := by omega
    rw [h.e, h.w, BitVec.ofNat_add, hlen, BitVec.ofNat_add]
    grind
  rw [he, h.bytes _ (by omega), List.getD_eq_getElem?_getD,
    List.getElem?_append_right (Nat.le_add_right _ _), Nat.add_sub_cancel_left,
    List.getElem?_eq_getElem (by omega)]
  exact List.getElem_mem _

theorem Represents.killLine (h : Represents cons ed) :
    Represents (cons.killLine ed.pending.length) { ed with pending := [] } := by
  induction hn : ed.pending.length generalizing cons ed with
  | zero =>
    rw [List.length_eq_zero_iff] at hn
    rw [Cons.killLine, ← hn]
    exact h
  | succ n ih =>
    have hne : ed.pending ≠ [] := by
      rintro heq
      simp [heq] at hn
    rw [Cons.killLine, if_pos ⟨mt h.e_eq_w.1 hne, (h.line _ (h.last hne)).1⟩]
    have hlen : ed.pending.dropLast.length = n := by rw [List.length_dropLast, hn]; rfl
    have herase := ih (h.erase hne) hlen
    exact herase

/-- The ring with a byte stored at `e`. -/
def Cons.put (cons : Cons) (c : Byte) : Cons :=
  { cons with buf := fun i => if i = ringIndex cons.e then c else cons.buf i, e := cons.e + 1 }

theorem Represents.put_bytes (h : Represents cons ed) (hroom : ed.outstanding < INPUT_BUF_SIZE) :
    ∀ j < ed.outstanding + 1, (cons.put c).buf (ringIndex (cons.r + BitVec.ofNat 32 j)) =
      (ed.unread ++ (ed.pending ++ [c])).getD j 0 := by
  intro j hj
  have he : cons.e = cons.r + BitVec.ofNat 32 ed.outstanding := by
    rw [h.e, h.w, Editor.outstanding, BitVec.ofNat_add, BitVec.add_assoc]
  have hlen : (ed.unread ++ ed.pending).length = ed.outstanding := List.length_append
  simp only [Cons.put]
  rw [← List.append_assoc, List.getD_eq_getElem?_getD, he]
  rcases Nat.lt_succ_iff_lt_or_eq.1 hj with hlt | rfl
  · rw [if_neg (ringIndex_ne hlt hroom), h.bytes j hlt, List.getElem?_append_left (by omega),
      List.getD_eq_getElem?_getD]
  · rw [if_pos rfl, List.getElem?_append_right (by omega), hlen, Nat.sub_self]
    rfl

theorem Represents.put_full (h : Represents cons ed) (hroom : ed.outstanding < INPUT_BUF_SIZE) :
    (cons.put c).e - (cons.put c).r = 128 ↔ ed.outstanding + 1 = INPUT_BUF_SIZE := by
  have hsub : (cons.put c).e - (cons.put c).r = BitVec.ofNat 32 (ed.outstanding + 1) := by
    show cons.e + 1 - cons.r = _
    rw [h.e, h.w, Editor.outstanding, BitVec.ofNat_add, BitVec.ofNat_add]
    grind
  have hsize : INPUT_BUF_SIZE = 128 := rfl
  have hnum : (128 : BitVec 32).toNat = 128 := rfl
  rw [hsub, ← BitVec.toNat_inj, BitVec.toNat_ofNat, hnum]
  omega

/-- A byte that commits the line. -/
theorem Represents.commit (h : Represents cons ed) (hroom : ed.outstanding < INPUT_BUF_SIZE)
    (c : Byte) :
    Represents { cons.put c with w := (cons.put c).e }
      { ed with committed := ed.committed ++ (ed.pending ++ [c]), pending := [] } := by
  have hunread : (ed.committed ++ (ed.pending ++ [c])).drop ed.taken =
      ed.unread ++ (ed.pending ++ [c]) := List.drop_append_of_le_length h.taken
  have hlen : (ed.unread ++ (ed.pending ++ [c])).length = ed.outstanding + 1 := by
    simp only [List.length_append, List.length_singleton, Editor.outstanding]
    omega
  constructor
  case taken => exact h.taken.trans (by simp)
  case w =>
    show cons.e + 1 = cons.r + BitVec.ofNat 32
      ((ed.committed ++ (ed.pending ++ [c])).drop ed.taken).length
    rw [hunread, hlen, h.e, h.w, Editor.outstanding, BitVec.ofNat_add, BitVec.ofNat_add]
    grind
  case e => simp
  case room =>
    show ((ed.committed ++ (ed.pending ++ [c])).drop ed.taken).length + 0 ≤ INPUT_BUF_SIZE
    rw [hunread, hlen]
    exact hroom
  case full => exact fun _ => rfl
  case line => simp
  case bytes =>
    intro j hj
    have hj : j < ((ed.committed ++ (ed.pending ++ [c])).drop ed.taken).length + 0 := hj
    rw [hunread, hlen] at hj
    show _ = ((ed.committed ++ (ed.pending ++ [c])).drop ed.taken ++ []).getD j 0
    rw [hunread, List.append_nil]
    exact h.put_bytes hroom j hj

/-- A byte that the line goes on after. -/
theorem Represents.append (h : Represents cons ed) (hroom : ed.outstanding + 1 < INPUT_BUF_SIZE)
    (hline : c ≠ newline ∧ c ≠ C 'D') :
    Represents (cons.put c) { ed with pending := ed.pending ++ [c] } := by
  have hout : ed.unread.length + (ed.pending ++ [c]).length = ed.outstanding + 1 := by
    rw [List.length_append, List.length_singleton, Editor.outstanding, Nat.add_assoc]
  constructor
  case taken => exact h.taken
  case w => exact h.w
  case e =>
    show cons.e + 1 = cons.w + BitVec.ofNat 32 (ed.pending ++ [c]).length
    rw [h.e, List.length_append, BitVec.ofNat_add, ← BitVec.add_assoc]
    rfl
  case room => exact hout.le.trans hroom.le
  case full => exact fun hfull => absurd (hout.symm.trans hfull) hroom.ne
  case line =>
    intro x hx
    rcases List.mem_append.1 hx with hx | hx
    · exact h.line x hx
    · rw [List.mem_singleton.1 hx]
      exact hline
  case bytes => exact fun j hj => h.put_bytes (Nat.lt_of_succ_lt hroom) j (hout ▸ hj)

/-- **A key does to the ring what it does to the editor.** -/
theorem Represents.consintr (h : Represents cons ed) (c : Byte) :
    Represents (consintr cons c).1 (ed.key c) := by
  unfold SignalOS.consintr Editor.key
  split
  · exact h
  split
  · rw [h.pending_eq]
    exact h.killLine
  split
  · by_cases hpending : ed.pending = []
    · rw [if_neg (not_not.2 (h.e_eq_w.2 hpending)), hpending, List.dropLast_nil, ← hpending]
      exact h
    · rw [if_pos (mt h.e_eq_w.1 hpending)]
      exact h.erase hpending
  have hlt : cons.e - cons.r < 128 ↔ ed.outstanding < INPUT_BUF_SIZE := by
    rw [BitVec.lt_def, h.outstanding_eq]
    rfl
  by_cases hroom : c ≠ 0 ∧ ed.outstanding < INPUT_BUF_SIZE
  · rw [if_pos hroom, if_pos ⟨hroom.1, hlt.2 hroom.2⟩, Editor.type]
    set c' := if c = 13 then newline else c
    have hends : (c' = newline ∨ c' = C 'D' ∨ (cons.put c').e - (cons.put c').r = 128) ↔
        c' = newline ∨ c' = C 'D' ∨ ed.outstanding + 1 = INPUT_BUF_SIZE := by
      rw [h.put_full hroom.2]
    change Represents (if c' = newline ∨ c' = C 'D' ∨ (cons.put c').e - (cons.put c').r = 128 then
      ({ cons.put c' with w := (cons.put c').e }, true) else (cons.put c', false)).1 _
    by_cases hcommit : c' = newline ∨ c' = C 'D' ∨ ed.outstanding + 1 = INPUT_BUF_SIZE
    · rw [if_pos hcommit, if_pos (hends.2 hcommit)]
      exact h.commit hroom.2 c'
    · rw [if_neg hcommit, if_neg (mt hends.1 hcommit)]
      push Not at hcommit
      exact h.append (lt_of_le_of_ne hroom.2 hcommit.2.2) ⟨hcommit.1, hcommit.2.1⟩
  · rw [if_neg hroom, if_neg fun hc => hroom ⟨hc.1, hlt.1 hc.2⟩]
    exact h

/-! ### Reads -/

/-- A byte that a reader uses up. -/
theorem Represents.next {unread : List Byte} (h : Represents cons ed)
    (hunread : ed.unread = c :: unread) :
    cons.buf (ringIndex cons.r) = c ∧
      Represents { cons with r := cons.r + 1 } (ed.take 1) ∧ (ed.take 1).unread = unread := by
  have hout : ed.outstanding = unread.length + 1 + ed.pending.length := by
    rw [Editor.outstanding, hunread, List.length_cons]
  have hdrop : (ed.take 1).unread = unread := by
    show ed.committed.drop (ed.taken + 1) = unread
    rw [← List.drop_drop, ← Editor.unread, hunread]
    rfl
  have hrest : (ed.take 1).outstanding + 1 = ed.outstanding := by
    rw [Editor.outstanding, hdrop, hout]
    show unread.length + ed.pending.length + 1 = _
    omega
  refine ⟨?_, ?_, hdrop⟩
  · have hfirst := h.bytes 0 (by omega)
    rw [hunread] at hfirst
    simpa using hfirst
  constructor
  case taken =>
    show ed.taken + 1 ≤ ed.committed.length
    have hlen := congrArg List.length hunread
    rw [Editor.unread, List.length_drop, List.length_cons] at hlen
    omega
  case w =>
    show cons.w = cons.r + 1 + BitVec.ofNat 32 (ed.take 1).unread.length
    rw [h.w, hunread, hdrop, List.length_cons, Nat.add_comm, BitVec.ofNat_add, ← BitVec.add_assoc]
    rfl
  case e => exact h.e
  case room => exact (Nat.le_succ _).trans (hrest.le.trans h.room)
  case full =>
    have hroom := h.room
    intro hfull
    omega
  case line => exact h.line
  case bytes =>
    intro j hj
    have hbyte := h.bytes (j + 1) (by omega)
    rw [hunread, List.cons_append, List.getD_cons_succ, Nat.add_comm, BitVec.ofNat_add,
      ← BitVec.add_assoc] at hbyte
    rw [hdrop]
    exact hbyte

end Represents

/-- The bytes that the loop of `user_console_read` hands to `copy_to_user`, as long as all of them
can be stored. -/
def delivered : Nat → Uint64 → Cons → List Byte
  | 0, _, _ => []
  | fuel + 1, n, cons =>
    if n.sle 0 then []
    else if cons.r = cons.w then []
    else
      let c := cons.buf (ringIndex cons.r)
      if c = C 'D' then []
      else if c = newline then [c]
      else c :: delivered fuel (n - 1) { cons with r := cons.r + 1 }

/-- **A turn of `user_console_read` stores the bytes it delivers one after the other.** -/
theorem consoleReadLoop_vm (mm : Mm) (target : Uint64) (fuel : Nat) (buf n : Uint64) (cons : Cons)
    (vm : Vm) :
    (consoleReadLoop mm target fuel buf n cons vm).2.2 =
      (copyToUser vm mm buf (delivered fuel n cons)).2 := by
  induction fuel generalizing buf n cons vm with
  | zero => rfl
  | succ fuel ih =>
    rw [consoleReadLoop, delivered]
    split
    · rfl
    split
    · rfl
    dsimp only
    split
    · rfl
    rw [copyToUser_cons vm mm buf _ []]
    by_cases hline : cons.buf (ringIndex cons.r) = newline
    · rw [if_pos hline, if_pos hline, copyToUser_cons]
      cases userPa vm mm buf with
      | none => rfl
      | some a => rfl
    · rw [if_neg hline, if_neg hline, copyToUser_cons]
      cases userPa vm mm buf with
      | none => rfl
      | some a => exact ih _ _ _ _

/-- How a turn of the loop ends, in terms of what it takes. -/
def Taking.readEnd (t : Taking) (buf n : Uint64) : ReadEnd :=
  let left := n - BitVec.ofNat 64 t.bytes.length
  if t.ends then .done left else .wait (buf + BitVec.ofNat 64 t.bytes.length) left

/-- **A turn of `user_console_read` takes from the ring what a read takes from the editor**, if
its buffer is mapped. -/
theorem consoleReadLoop_taking {mm : Mm} {target buf n : Uint64} {fuel : Nat} {cons : Cons}
    {vm : Vm}
    {ed : Editor} (h : Represents cons ed) (hfuel : ed.unread.length < fuel)
    (hn : n.toNat < 2 ^ 63) (htarget : target.toNat < 2 ^ 63)
    (hmapped : ∀ j < n.toNat, userPa vm mm (buf + BitVec.ofNat 64 j) ≠ none) :
    let t := taking target.toNat n.toNat ed.unread
    let r := consoleReadLoop mm target fuel buf n cons vm
    r.1 = t.readEnd buf n ∧ Represents r.2.1 (ed.take t.used) ∧
      delivered fuel n cons = t.bytes := by
  induction fuel generalizing buf n cons vm ed with
  | zero => exact absurd hfuel (Nat.not_lt_zero _)
  | succ fuel ih =>
    have hsle : n.sle 0 = true ↔ n.toNat = 0 := by
      rw [BitVec.sle_iff_toInt_le, BitVec.toInt_eq_toNat_of_lt (by omega)]
      simp
    by_cases hzero : n.toNat = 0
    · rw [consoleReadLoop, delivered, if_pos (hsle.2 hzero), if_pos (hsle.2 hzero), hzero]
      refine ⟨?_, h, rfl⟩
      simp [taking, Taking.readEnd]
    obtain ⟨k, hk⟩ := Nat.exists_eq_succ_of_ne_zero hzero
    rw [consoleReadLoop, delivered, if_neg (mt hsle.1 hzero), if_neg (mt hsle.1 hzero), hk]
    cases hunread : ed.unread with
    | nil =>
      rw [if_pos (h.r_eq_w.2 hunread), if_pos (h.r_eq_w.2 hunread)]
      refine ⟨?_, h, rfl⟩
      simp [taking, Taking.readEnd]
    | cons c unread =>
      have hne : ¬ cons.r = cons.w := fun heq => by
        rw [h.r_eq_w.1 heq] at hunread
        exact absurd hunread (by simp)
      obtain ⟨hc, hnext, hrest⟩ := h.next hunread
      rw [if_neg hne, if_neg hne, hc]
      dsimp only
      by_cases heof : c = C 'D'
      · rw [if_pos heof, if_pos heof, taking, if_pos heof]
        have hslt : n.slt target = true ↔ k + 1 < target.toNat := by
          rw [BitVec.slt_iff_toInt_lt, BitVec.toInt_eq_toNat_of_lt (by omega),
            BitVec.toInt_eq_toNat_of_lt (by omega)]
          omega
        refine ⟨by simp [Taking.readEnd], ?_, rfl⟩
        by_cases hmore : k + 1 < target.toNat
        · rw [if_pos hmore, if_pos (hslt.2 hmore)]
          exact h
        · rw [if_neg hmore, if_neg (mt hslt.1 hmore)]
          exact hnext
      rw [if_neg heof, if_neg heof]
      obtain ⟨a, ha⟩ := Option.ne_none_iff_exists'.1 (hmapped 0 (by omega))
      have hstore : copyToUser vm mm buf [c] = (0, vm.store a [c]) := by
        rw [copyToUser_cons, show userPa vm mm buf = some a by simpa using ha]
        rfl
      rw [hstore]
      by_cases hline : c = newline
      · rw [if_neg (lt_irrefl 0), if_pos hline, if_pos hline, taking, if_neg heof, if_pos hline]
        exact ⟨by simp [Taking.readEnd], hnext, rfl⟩
      · rw [if_neg (lt_irrefl 0), if_neg hline, if_neg hline, taking, if_neg heof, if_neg hline]
        have hpred : (n - 1).toNat = k := by
          rw [BitVec.toNat_sub]
          have hone : (1 : Uint64).toNat = 1 := rfl
          omega
        have hlater := @ih (buf + 1) (n - 1) _ (vm.store a [c]) _ hnext
          (by rw [hrest]; rw [hunread, List.length_cons] at hfuel; omega) (by omega) fun j hj => ?_
        · rw [hpred, hrest] at hlater
          obtain ⟨hend, hrep, hbytes⟩ := hlater
          refine ⟨?_, ?_, by rw [hbytes]⟩
          · rw [hend, Taking.readEnd, Taking.readEnd]
            dsimp only
            rw [List.length_cons, Nat.add_comm, BitVec.ofNat_add]
            congr 1
            · congr 1
              grind
            · congr 1
              · grind
              · grind
          · rw [Editor.take_take] at hrep
            exact hrep
        · rw [userPa_congr (Vm.store_pte _ _ _), ← ofNat_succ_add]
          exact hmapped (j + 1) (by omega)

/-! ## Keys and reads in any order -/

/-- A call of `user_console_read` that has not returned: its variables. -/
structure ReadCall where
  buf : Uint64
  n : Uint64
  target : Uint64

/-- The ring, the calls by their number, the bytes they have stored and what they returned. -/
structure Console where
  cons : Cons
  started : Nat
  calls : Nat → Option ReadCall
  log : List (Nat × Byte)
  results : Nat → Option Uint64

def Console.zero : Console := ⟨Cons.zero, 0, fun _ => none, [], fun _ => none⟩

/-- What may happen at the console. -/
inductive ConsoleAct where
  | key (c : Byte)
  /-- A process calls `read(0, buf, n)`. -/
  | start (buf n : Uint64)
  /-- A call runs, in this address space and memory, until it returns or sleeps. -/
  | turn (i : Nat) (mm : Mm) (vm : Vm)

/-- One action: `n` is from 1 to `2^31 - 1`, and buffers are mapped. -/
def consoleStep (s : Console) : ConsoleAct → Option Console
  | .key c => some { s with cons := (consintr s.cons c).1 }
  | .start buf n =>
    if 1 ≤ n.toNat ∧ n.toNat < 2 ^ 31 then
      let call : ReadCall := ⟨buf, n, (n.setWidth 32).setWidth 64⟩
      some
        { s with started := s.started + 1, calls := Function.update s.calls s.started (some call) }
    else none
  | .turn i mm vm =>
    (s.calls i).bind fun call =>
      if ∀ j < call.n.toNat, userPa vm mm (call.buf + BitVec.ofNat 64 j) ≠ none then
        let fuel := (s.cons.w - s.cons.r).toNat + 1
        let r := consoleReadLoop mm call.target fuel call.buf call.n s.cons vm
        let s :=
          { s with cons := r.2.1, log := s.log ++ (delivered fuel call.n s.cons).map (i, ·) }
        match r.1 with
        | .done n =>
          some { s with calls := Function.update s.calls i none
                        results := Function.update s.results i (some (call.target - n)) }
        | .wait buf n =>
          some
            { s with calls := Function.update s.calls i (some { call with buf := buf, n := n }) }
      else none

/-- It does not deliver more than it has room for. -/
theorem delivered_length_le (fuel : Nat) (n : Uint64) (cons : Cons) :
    (delivered fuel n cons).length ≤ n.toNat := by
  induction fuel generalizing n cons with
  | zero => exact Nat.zero_le _
  | succ fuel ih =>
    rw [delivered]
    split
    · exact Nat.zero_le _
    rename_i hn
    have hpos : 1 ≤ n.toNat := by
      by_contra hzero
      obtain rfl : n = 0 := BitVec.eq_of_toNat_eq (by simpa using hzero)
      exact hn (by decide)
    split
    · exact Nat.zero_le _
    dsimp only
    split
    · exact Nat.zero_le _
    split
    · exact hpos
    · have hrest := ih (n - 1) { cons with r := cons.r + 1 }
      have hpred : (n - 1).toNat = n.toNat - 1 := by
        rw [BitVec.toNat_sub]
        show (2 ^ 64 - 1 + n.toNat) % 2 ^ 64 = _
        omega
      rw [List.length_cons]
      omega

/-- A turn of the call `i` has stored the bytes that it has logged, one after the other, in the
memory of its process, and nothing else. -/
def StoresLogged (s s' : Console) (i : Nat) (mm : Mm) (vm : Vm) : Prop :=
  ∃ call bs, s.calls i = some call ∧ s'.log = s.log ++ bs.map (i, ·) ∧
    (copyToUser vm mm call.buf bs).1 = 0 ∧
    (consoleReadLoop mm call.target ((s.cons.w - s.cons.r).toNat + 1) call.buf call.n s.cons
      vm).2.2 =
      (copyToUser vm mm call.buf bs).2

theorem consoleStep_stores {s s' : Console} {i : Nat} {mm : Mm} {vm : Vm}
    (h : consoleStep s (.turn i mm vm) = some s') : StoresLogged s s' i mm vm := by
  simp only [consoleStep, Option.bind_eq_some_iff] at h
  obtain ⟨call, hcall, h⟩ := h
  split at h
  · rename_i hmapped
    refine ⟨call, delivered ((s.cons.w - s.cons.r).toNat + 1) call.n s.cons, hcall, ?_, ?_,
      consoleReadLoop_vm ..⟩
    · split at h
      · rw [← Option.some.inj h]
      · rw [← Option.some.inj h]
    · rcases copyToUser_succeeds vm mm call.buf
        (delivered ((s.cons.w - s.cons.r).toNat + 1) call.n s.cons) with ⟨hret, -⟩ | ⟨-, j,
          hj, hstop⟩
      · exact hret
      · have hle := delivered_length_le ((s.cons.w - s.cons.r).toNat + 1) call.n s.cons
        exact absurd (fun l hl => hmapped l (by omega)) hstop
  · cases h

/-- A read of the line editor: the bytes it has room for, and those it had at first. -/
structure LineRead where
  left : Nat
  target : Nat

/-- The line editor with its readers. -/
structure Terminal where
  editor : Editor
  started : Nat
  calls : Nat → Option LineRead
  log : List (Nat × Byte)
  results : Nat → Option Nat

def Terminal.zero : Terminal := ⟨Editor.empty, 0, fun _ => none, [], fun _ => none⟩

/-- What an action at the console means for the line editor. -/
def terminalStep (t : Terminal) : ConsoleAct → Option Terminal
  | .key c => some { t with editor := t.editor.key c }
  | .start _ n =>
    some { t with started := t.started + 1
                  calls := Function.update t.calls t.started (some ⟨n.toNat, n.toNat⟩) }
  | .turn i _ _ =>
    (t.calls i).map fun call =>
      let taken := taking call.target call.left t.editor.unread
      let left := call.left - taken.bytes.length
      let t :=
        { t with editor := t.editor.take taken.used, log := t.log ++ taken.bytes.map (i, ·) }
      if taken.ends then
        { t with calls := Function.update t.calls i none
                 results := Function.update t.results i (some (call.target - left)) }
      else { t with calls := Function.update t.calls i (some { call with left := left }) }

/-! ### The ring's console refines the line editor's -/

/-- A call stands for a read of the line editor. -/
def ReadCall.Stands (call : ReadCall) (r : LineRead) : Prop :=
  r.left = call.n.toNat ∧ r.target = call.target.toNat ∧ r.left ≤ r.target ∧ r.target < 2 ^ 31

structure Refines (s : Console) (t : Terminal) : Prop where
  ring : Represents s.cons t.editor
  started : s.started = t.started
  log : s.log = t.log
  calls : ∀ i, Option.Rel ReadCall.Stands (s.calls i) (t.calls i)
  results : ∀ i, (s.results i).map BitVec.toNat = t.results i

theorem Refines.zero : Refines Console.zero Terminal.zero where
  ring := Represents.zero
  started := rfl
  log := rfl
  calls := fun _ => .none
  results := fun _ => rfl

/-- Related calls stay related when one of them changes on both sides. -/
theorem rel_update {calls : Nat → Option ReadCall} {reads : Nat → Option LineRead} {i : Nat}
    {call : Option ReadCall} {read : Option LineRead}
    (h : ∀ j, Option.Rel ReadCall.Stands (calls j) (reads j))
    (hi : Option.Rel ReadCall.Stands call read)
    (j : Nat) :
    Option.Rel ReadCall.Stands (Function.update calls i call j)
      (Function.update reads i read j) := by
  by_cases hj : j = i
  · subst hj
    rwa [Function.update_self, Function.update_self]
  · rw [Function.update_of_ne hj, Function.update_of_ne hj]
    exact h j

/-- **Every action at the console is one of the line editor.** -/
theorem Refines.step {s s' : Console} {t : Terminal} {a : ConsoleAct} (h : Refines s t)
    (hstep : consoleStep s a = some s') : ∃ t', terminalStep t a = some t' ∧ Refines s' t' := by
  cases a with
  | key c =>
    cases hstep
    exact ⟨_, rfl, { h with ring := h.ring.consintr c }⟩
  | start buf n =>
    rw [consoleStep] at hstep
    split at hstep
    · rename_i hn
      cases hstep
      have htarget : ((n.setWidth 32).setWidth 64).toNat = n.toNat := by
        simp only [BitVec.toNat_setWidth]
        omega
      have hcall : ReadCall.Stands ⟨buf, n, (n.setWidth 32).setWidth 64⟩ ⟨n.toNat, n.toNat⟩ :=
        ⟨rfl, htarget.symm, le_rfl, hn.2⟩
      refine ⟨_, rfl, h.ring, congrArg Nat.succ h.started, h.log, fun i => ?_, h.results⟩
      rw [← h.started]
      exact rel_update h.calls (.some hcall) i
    · exact absurd hstep (by simp)
  | turn i mm vm =>
    have hcalls := h.calls i
    simp only [consoleStep, Option.bind_eq_some_iff] at hstep
    obtain ⟨call, hcall, hstep⟩ := hstep
    rw [hcall] at hcalls
    cases hread : t.calls i with
    | none =>
      rw [hread] at hcalls
      cases hcalls
    | some read =>
      rw [hread] at hcalls
      obtain ⟨hleft, htarget, hle, hlt⟩ := Option.rel_some_some.1 hcalls
      split at hstep
      · rename_i hmapped
        have htaking :=
          @consoleReadLoop_taking _ call.target _ _ ((s.cons.w - s.cons.r).toNat + 1) _ vm _ h.ring
            (by rw [h.ring.unread_eq]; omega)
            (by omega) (by omega) hmapped
        have hbytes := taking_length_le read.target read.left t.editor.unread
        rw [← hleft, ← htarget] at htaking
        obtain ⟨hend, hring, hdelivered⟩ := htaking
        have hsub :
          (call.n - BitVec.ofNat 64
          (taking read.target read.left t.editor.unread).bytes.length).toNat =
            read.left - (taking read.target read.left t.editor.unread).bytes.length := by
          rw [BitVec.toNat_sub, BitVec.toNat_ofNat]
          omega
        refine ⟨_, by rw [terminalStep, hread]; rfl, ?_⟩
        rw [hend, hdelivered, Taking.readEnd] at hstep
        dsimp only
        by_cases hends : (taking read.target read.left t.editor.unread).ends = true
        · rw [if_pos hends] at hstep ⊢
          cases hstep
          refine ⟨hring, h.started, congrArg (· ++ _) h.log, rel_update h.calls .none, fun j => ?_⟩
          by_cases hj : j = i
          · subst hj
            simp only [Function.update_self, Option.map_some, Option.some.injEq]
            rw [BitVec.toNat_sub, hsub]
            omega
          · simp only [Function.update_of_ne hj]
            exact h.results j
        · rw [if_neg hends] at hstep ⊢
          cases hstep
          refine ⟨hring, h.started, congrArg (· ++ _) h.log, rel_update h.calls (.some ?_),
            h.results⟩
          exact ⟨hsub.symm, htarget, (Nat.sub_le _ _).trans hle, hlt⟩
      · exact absurd hstep (by simp)

theorem Refines.run {s s' : Console} {t : Terminal} {as : List ConsoleAct} (h : Refines s t)
    (hrun : run consoleStep s as = some s') : ∃ t', run terminalStep t as = some t' ∧
    Refines s' t' := by
  induction as generalizing s t with
  | nil => exact ⟨t, rfl, Option.some.inj hrun ▸ h⟩
  | cons a as ih =>
    obtain ⟨u, hstep, hrest⟩ := run_cons_eq_some.1 hrun
    obtain ⟨v, hstep', hrefines⟩ := h.step hstep
    obtain ⟨t', hrun', hlast⟩ := ih hrefines hrest
    exact ⟨t', run_cons_eq_some.2 ⟨v, hstep', hrun'⟩, hlast⟩

/-! ### What the readers get -/

/-- The bytes of one call. -/
def bytesOfCall (log : List (Nat × Byte)) (i : Nat) : List Byte :=
  (log.filter (·.1 = i)).map Prod.snd

theorem bytesOfCall_append_self (log : List (Nat × Byte)) (i : Nat) (bs : List Byte) :
    bytesOfCall (log ++ bs.map (i, ·)) i = bytesOfCall log i ++ bs := by
  simp [bytesOfCall, List.filter_map, Function.comp_def]

theorem bytesOfCall_append_of_ne {i j : Nat} (h : j ≠ i) (log : List (Nat × Byte))
    (bs : List Byte) :
    bytesOfCall (log ++ bs.map (i, ·)) j = bytesOfCall log j := by
  simp [bytesOfCall, List.filter_map, Function.comp_def, h.symm]

/-- What holds of the line editor and its readers. -/
structure Accounted (t : Terminal) : Prop where
  taken : t.editor.taken ≤ t.editor.committed.length
  /-- What was returned is what was used up, without `^D`. -/
  log : t.log.map Prod.snd = (t.editor.committed.take t.editor.taken).filter (· ≠ C 'D')
  calls : ∀ i r, t.calls i = some r → r.left + (bytesOfCall t.log i).length = r.target
  results : ∀ i n, t.results i = some n → n = (bytesOfCall t.log i).length ∧ t.calls i = none
  fresh : ∀ i, t.started ≤ i → t.calls i = none ∧ t.results i = none ∧ bytesOfCall t.log i = []

theorem Accounted.zero : Accounted Terminal.zero where
  taken := le_rfl
  log := rfl
  calls := fun i r h => by cases h
  results := fun i n h => by cases h
  fresh := fun _ _ => ⟨rfl, rfl, rfl⟩

theorem Editor.key_committed (ed : Editor) (c : Byte) :
    (ed.key c).taken = ed.taken ∧ ∃ line, (ed.key c).committed = ed.committed ++ line := by
  unfold Editor.key Editor.type
  split_ifs
  all_goals first | exact ⟨rfl, [], (List.append_nil _).symm⟩ | exact ⟨rfl, _, rfl⟩

theorem Editor.take_bytes (ed : Editor) (target n : Nat) :
    ((ed.committed.take (ed.taken + (taking target n ed.unread).used)).filter (· ≠ C 'D')) =
      (ed.committed.take ed.taken).filter (· ≠ C 'D') ++ (taking target n ed.unread).bytes := by
  rw [taking_bytes, ← List.filter_append, List.take_add, Editor.unread]

theorem Accounted.step {t t' : Terminal} {a : ConsoleAct} (h : Accounted t)
    (hstep : terminalStep t a = some t') : Accounted t' := by
  cases a with
  | key c =>
    cases hstep
    obtain ⟨htaken, line, hcommitted⟩ := t.editor.key_committed c
    refine { h with taken := ?_, log := ?_ }
    · rw [htaken, hcommitted, List.length_append]
      exact h.taken.trans (Nat.le_add_right _ _)
    · rw [htaken, hcommitted, List.take_append_of_le_length h.taken]
      exact h.log
  | start buf n =>
    cases hstep
    refine { h with
      calls := fun i r hr => ?_, results := fun i m hm => ?_, fresh := fun i hi => ?_ }
    · by_cases hi : i = t.started
      · subst hi
        dsimp only at hr
        rw [Function.update_self, Option.some.injEq] at hr
        rw [← hr, (h.fresh _ le_rfl).2.2]
        rfl
      · dsimp only at hr
        rw [Function.update_of_ne hi] at hr
        exact h.calls i r hr
    · have hi : i ≠ t.started := by
        rintro rfl
        exact absurd ((h.fresh _ le_rfl).2.1.symm.trans hm) (by simp)
      dsimp only
      rw [Function.update_of_ne hi]
      exact h.results i m hm
    · have hi : t.started + 1 ≤ i := hi
      dsimp only
      rw [Function.update_of_ne (by omega)]
      exact h.fresh i (by omega)
  | turn i mm vm =>
    simp only [terminalStep, Option.map_eq_some_iff] at hstep
    obtain ⟨call, hcall, hstep⟩ := hstep
    have hcount := h.calls i call hcall
    have hle := taking_length_le call.target call.left t.editor.unread
    have hused := taking_used_le call.target call.left t.editor.unread
    have hstarted : i < t.started := by
      by_contra hge
      exact absurd ((h.fresh i (Nat.not_lt.1 hge)).1.symm.trans hcall) (by simp)
    set taken := taking call.target call.left t.editor.unread with htaken
    have hown := bytesOfCall_append_self t.log i taken.bytes
    have hother {j : Nat} (hj : j ≠ i) := bytesOfCall_append_of_ne hj t.log taken.bytes
    have htake : (t.editor.take taken.used).taken ≤
        (t.editor.take taken.used).committed.length := by
      show t.editor.taken + taken.used ≤ t.editor.committed.length
      have hlen := h.taken
      rw [Editor.unread, List.length_drop] at hused
      omega
    have hlog : (t.log ++ taken.bytes.map (i, ·)).map Prod.snd =
        (t.editor.committed.take (t.editor.taken + taken.used)).filter (· ≠ C 'D') := by
      rw [Editor.take_bytes, List.map_append, h.log, List.map_map]
      simp [Function.comp_def, ← htaken]
    have hfresh : ∀ j, t.started ≤ j → bytesOfCall (t.log ++ taken.bytes.map (i, ·)) j = [] := by
      intro j hj
      rw [hother (by omega)]
      exact (h.fresh j hj).2.2
    split at hstep
    · cases hstep
      refine ⟨htake, hlog, fun j r hr => ?_, fun j n hn => ?_, fun j hj => ?_⟩
      · have hj : j ≠ i := by
          rintro rfl
          simp at hr
        simp only [Function.update_of_ne hj] at hr
        rw [hother hj]
        exact h.calls j r hr
      · by_cases hj : j = i
        · subst hj
          simp only [Function.update_self, Option.some.injEq] at hn
          refine ⟨?_, Function.update_self _ _ _⟩
          rw [hown, List.length_append]
          omega
        · simp only [Function.update_of_ne hj] at hn ⊢
          rw [hother hj]
          exact h.results j n hn
      · have hj : t.started ≤ j := hj
        refine ⟨?_, ?_, hfresh j hj⟩
        · simp only [Function.update_of_ne (show j ≠ i by omega)]
          exact (h.fresh j hj).1
        · simp only [Function.update_of_ne (show j ≠ i by omega)]
          exact (h.fresh j hj).2.1
    · cases hstep
      refine ⟨htake, hlog, fun j r hr => ?_, fun j n hn => ?_, fun j hj => ?_⟩
      · by_cases hj : j = i
        · subst hj
          simp only [Function.update_self, Option.some.injEq] at hr
          rw [← hr, hown, List.length_append]
          dsimp only
          omega
        · simp only [Function.update_of_ne hj] at hr
          rw [hother hj]
          exact h.calls j r hr
      · have hj : j ≠ i := by
          rintro rfl
          exact absurd ((h.results j n hn).2.symm.trans hcall) (by simp)
        simp only [Function.update_of_ne hj]
        rw [hother hj]
        exact h.results j n hn
      · have hj : t.started ≤ j := hj
        refine ⟨?_, (h.fresh j hj).2.1, hfresh j hj⟩
        simp only [Function.update_of_ne (show j ≠ i by omega)]
        exact (h.fresh j hj).1

/-- No read starts before the one before it has returned. -/
def OneAtATime (s : Console) (a : ConsoleAct) : Prop :=
  match a with
  | .start .. => ∀ i < s.started, s.calls i = none
  | _ => True

/-- Reads that do not overlap get their bytes one after the other. -/
structure InTurn (s : Console) : Prop where
  calls : ∀ i, s.calls i ≠ none → i + 1 = s.started
  log : (List.range s.started).flatMap (bytesOfCall s.log) = s.log.map Prod.snd
  fresh : ∀ i, s.started ≤ i → s.calls i = none ∧ bytesOfCall s.log i = []

theorem InTurn.step {s s' : Console} {a : ConsoleAct} (h : InTurn s) (hok : OneAtATime s a)
    (hstep : consoleStep s a = some s') : InTurn s' := by
  cases a with
  | key c =>
    cases hstep
    exact ⟨h.calls, h.log, h.fresh⟩
  | start buf n =>
    rw [consoleStep] at hstep
    split at hstep
    · cases hstep
      refine ⟨fun i hi => ?_, ?_, fun i hi => ?_⟩
      · by_contra hne
        dsimp only at hi hne
        rw [Function.update_of_ne (by omega)] at hi
        by_cases hlt : i < s.started
        · exact hi (hok i hlt)
        · exact hi (h.fresh i (Nat.not_lt.1 hlt)).1
      · rw [List.range_succ, List.flatMap_append, h.log]
        simp [(h.fresh s.started le_rfl).2]
      · have hi : s.started + 1 ≤ i := hi
        dsimp only
        rw [Function.update_of_ne (by omega)]
        exact h.fresh i (by omega)
    · exact absurd hstep (by simp)
  | turn i mm vm =>
    simp only [consoleStep, Option.bind_eq_some_iff] at hstep
    obtain ⟨call, hcall, hstep⟩ := hstep
    split at hstep
    · set bs := delivered ((s.cons.w - s.cons.r).toNat + 1) call.n s.cons
      have hlast : i + 1 = s.started := h.calls i (by simp [hcall])
      have hlog : (List.range s.started).flatMap (bytesOfCall (s.log ++ bs.map (i, ·))) =
          (s.log ++ bs.map (i, ·)).map Prod.snd := by
        have hold := h.log
        rw [← hlast, List.range_succ, List.flatMap_append] at hold ⊢
        have hbefore : (List.range i).flatMap (bytesOfCall (s.log ++ bs.map (i, ·))) =
            (List.range i).flatMap (bytesOfCall s.log) :=
          List.flatMap_congr fun j hj =>
            bytesOfCall_append_of_ne (List.mem_range.1 hj).ne s.log bs
        rw [hbefore, List.map_append, ← hold]
        simp [bytesOfCall_append_self, Function.comp_def]
      have hfresh : ∀ j, s.started ≤ j → bytesOfCall (s.log ++ bs.map (i, ·)) j = [] := by
        intro j hj
        rw [bytesOfCall_append_of_ne (by omega)]
        exact (h.fresh j hj).2
      have hcalls (call' : Option ReadCall) (j : Nat)
        (hj : Function.update s.calls i call' j ≠ none) :
          j + 1 = s.started := by
        by_cases hne : j = i
        · rw [hne, hlast]
        · rw [Function.update_of_ne hne] at hj
          exact h.calls j hj
      have hnone (call' : Option ReadCall) (j : Nat) (hj : s.started ≤ j) :
          Function.update s.calls i call' j = none := by
        rw [Function.update_of_ne (by omega)]
        exact (h.fresh j hj).1
      split at hstep
      · cases hstep
        exact ⟨hcalls _, hlog, fun j hj => ⟨hnone _ j hj, hfresh j hj⟩⟩
      · cases hstep
        exact ⟨hcalls _, hlog, fun j hj => ⟨hnone _ j hj, hfresh j hj⟩⟩
    · exact absurd hstep (by simp)

/-- **The console's line discipline.**  Whatever keys and reads come in whatever order: the indices
stay in order, also when they wrap; no newline is left uncommitted; a full ring can be read; what
each read returned it has stored; the bytes stored, in their order, are a prefix of what the line
editor committed without `^D`, and every turn stores its own in the memory of its process, one
after the other.  Where reads do not overlap that order is the order of the reads. -/
theorem console_line_discipline (as : List ConsoleAct) (s : Console)
    (hrun : run consoleStep Console.zero as = some s) :
    (s.cons.w - s.cons.r ≤ s.cons.e - s.cons.r ∧ s.cons.e - s.cons.r ≤ 128) ∧
      (∀ j < (s.cons.e - s.cons.w).toNat,
        s.cons.buf (ringIndex (s.cons.w + BitVec.ofNat 32 j)) ≠ newline) ∧
      (s.cons.e - s.cons.r = 128 → s.cons.w = s.cons.e) ∧
      (∀ i n, s.results i = some n → n.toNat = (bytesOfCall s.log i).length) ∧
      (∃ t, run terminalStep Terminal.zero as = some t ∧ t.log = s.log ∧
        s.log.map Prod.snd <+: t.editor.committed.filter (· ≠ C 'D')) ∧
      (∀ i mm vm s', consoleStep s (.turn i mm vm) = some s' → StoresLogged s s' i mm vm) ∧
      (Along consoleStep OneAtATime Console.zero as →
        (List.range s.started).flatMap (bytesOfCall s.log) = s.log.map Prod.snd) := by
  obtain ⟨t, hrun', hrefines⟩ := Refines.zero.run hrun
  have haccounted : Accounted t :=
    run_induct (fun _ _ _ h _ => h.step) Accounted.zero hrun' along_true
  have hring := hrefines.ring
  have hout : t.editor.outstanding = t.editor.unread.length + t.editor.pending.length := rfl
  have hroom := hring.room
  have hsize : INPUT_BUF_SIZE = 128 := rfl
  have hnum : (128 : BitVec 32).toNat = 128 := rfl
  refine ⟨⟨?_, ?_⟩, fun j hj => ?_, fun hfull => ?_, fun i n hn => ?_,
    ⟨t, hrun', hrefines.log.symm, ?_⟩,
    fun _ _ _ _ hstep => consoleStep_stores hstep, fun hok => ?_⟩
  · rw [BitVec.le_def, hring.unread_eq, hring.outstanding_eq]
    omega
  · rw [BitVec.le_def, hring.outstanding_eq]
    omega
  · rw [hring.pending_eq] at hj
    have hbyte := hring.bytes (t.editor.unread.length + j) (by omega)
    rw [BitVec.ofNat_add, ← BitVec.add_assoc, ← hring.w, List.getD_eq_getElem?_getD,
      List.getElem?_append_right (Nat.le_add_right _ _), Nat.add_sub_cancel_left,
      List.getElem?_eq_getElem hj] at hbyte
    rw [hbyte]
    exact (hring.line _ (List.getElem_mem hj)).1
  · refine (hring.e_eq_w.2 (hring.full ?_)).symm
    rw [← hring.outstanding_eq, hfull]
    rfl
  · have hresult := hrefines.results i
    rw [hn, Option.map_some] at hresult
    rw [hrefines.log]
    exact (haccounted.results i _ hresult.symm).1
  · rw [hrefines.log, haccounted.log]
    exact (List.take_prefix _ _).filter _
  · have hinit : InTurn Console.zero := ⟨fun i hi => absurd rfl hi, rfl, fun _ _ => ⟨rfl, rfl⟩⟩
    exact (run_induct (fun _ _ _ h hok => h.step hok) hinit hrun hok).log

/-- A line is typed with a slip, and two reads take it. -/
def typeAndRead : List ConsoleAct :=
  [.key 0x61, .key 0x78, .key 0x7f, .key 0x62, .start 0x5000 1, .key 13, .turn 0 stackMm stackVm,
    .start 0x5000 10, .turn 1 stackMm stackVm]

theorem console_line_discipline_typeAndRead :
    ∃ s, run consoleStep Console.zero typeAndRead = some s ∧ s.log = [(0, 0x61), (1, 0x62),
      (1, 10)] ∧
      s.cons.w - s.cons.r ≤ s.cons.e - s.cons.r := by
  have hobs : (run consoleStep Console.zero typeAndRead).map
      (fun s => decide (s.log = [(0, 0x61), (1, 0x62), (1, 10)])) = some true := by decide +kernel
  simp only [Option.map_eq_some_iff, decide_eq_true_eq] at hobs
  obtain ⟨s, hrun, hlog⟩ := hobs
  exact ⟨s, hrun, hlog, (console_line_discipline typeAndRead s hrun).1.1⟩

end SignalOS
