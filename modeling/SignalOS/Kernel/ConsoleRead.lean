import SignalOS.Kernel.LineDiscipline
import SignalOS.Kernel.Sleepers
import SignalOS.Vm.Lifetime

/-!
# What a console read delivers

A call of `user_console_read` takes turns, between which the ring, the memory and the
address space may change in any way.

* `readLog` — the bytes a turn stores in user memory, and those it takes from the ring;
  `readLog_memory`, `readLog_ring` — that they are these.
* `ReadTurn`, `readTurn` — **how a turn ends**.
* `sysRead` — a whole call; `CallDoes` — what its turns store and take; `ReadRight` — what it
  should report and consume.
* `sysRead_right` — **the calls that report and consume what they deliver**.
-/

namespace SignalOS

open Partial

variable {vm : Vm} {mm : Mm} {cons : Cons} {buf n target : Uint64} {fuel : Nat}

/-! ## One turn -/

/-- What a turn of `user_console_read` stores, and what it takes from the ring. -/
structure ReadLog where
  stored : List Byte
  removed : List Byte

/-- The bytes of a turn of the loop, which goes on as `consoleReadLoop` does. -/
def readLog (mm : Mm) (target : Uint64) : Nat → (buf n : Uint64) → Cons → Vm → ReadLog
  | 0, _, _, _, _ => ⟨[], []⟩
  | fuel + 1, buf, n, cons, vm =>
    if n.sle 0 then ⟨[], []⟩
    else if cons.r = cons.w then ⟨[], []⟩
    else
      let c := cons.buf (ringIndex cons.r)
      if c = C 'D' then ⟨[], if n.slt target then [] else [c]⟩
      else
        let w := copyToUser vm mm buf [c]
        if w.1 < 0 then ⟨[], [c]⟩
        else if c = newline then ⟨[c], [c]⟩
        else
          let rest := readLog mm target fuel (buf + 1) (n - 1) { cons with r := cons.r + 1 } w.2
          ⟨c :: rest.stored, c :: rest.removed⟩

theorem copyToUser_byte_eq (vm : Vm) (mm : Mm) (buf : Uint64) (c : Byte) :
    copyToUser vm mm buf [c] = match userPa vm mm buf with
      | none => (-EINVAL, vm)
      | some a => (0, vm.store a [c]) := by
  rw [copyToUser_cons]
  cases userPa vm mm buf <;> rfl

/-- **The bytes are stored one after the other** in user memory, and nothing else is. -/
theorem readLog_memory (mm : Mm) (target : Uint64) (fuel : Nat) (buf n : Uint64) (cons : Cons)
    (vm : Vm) :
    (consoleReadLoop mm target fuel buf n cons vm).2.2 =
      (copyToUser vm mm buf (readLog mm target fuel buf n cons vm).stored).2 ∧
    ∀ i < (readLog mm target fuel buf n cons vm).stored.length, Reached vm mm buf i := by
  induction fuel generalizing buf n cons vm with
  | zero => exact ⟨rfl, fun i hi => absurd hi (Nat.not_lt_zero i)⟩
  | succ fuel ih =>
    rw [consoleReadLoop, readLog]
    split
    · exact ⟨rfl, fun i hi => absurd hi (Nat.not_lt_zero i)⟩
    split
    · exact ⟨rfl, fun i hi => absurd hi (Nat.not_lt_zero i)⟩
    dsimp only
    split
    · exact ⟨rfl, fun i hi => absurd hi (Nat.not_lt_zero i)⟩
    rw [copyToUser_byte_eq]
    cases hpa : userPa vm mm buf with
    | none => exact ⟨rfl, fun i hi => absurd hi (Nat.not_lt_zero i)⟩
    | some a =>
      have hreached : Reached vm mm buf 0 := fun j hj => by
        rw [Nat.le_zero.1 hj]
        simp [hpa]
      dsimp only
      rw [if_neg (lt_irrefl 0), if_neg (lt_irrefl 0)]
      split
      · rw [copyToUser_byte_eq, hpa]
        refine ⟨rfl, fun i hi => ?_⟩
        rw [Nat.lt_one_iff.1 hi]
        exact hreached
      · obtain ⟨hmemory, hrest⟩ :=
          ih (buf + 1) (n - 1) { cons with r := cons.r + 1 }
            (vm.store a [cons.buf (ringIndex cons.r)])
        rw [hmemory, copyToUser_cons, hpa]
        refine ⟨rfl, fun i hi => ?_⟩
        cases i with
        | zero => exact hreached
        | succ i =>
          refine reached_succ.2 ⟨by simp [hpa], ?_⟩
          exact (reached_congr (Vm.store_pte _ _ _) i).1 (hrest i (Nat.lt_of_succ_lt_succ hi))

/-- **The other bytes are the next ones of the ring.** -/
theorem readLog_ring (mm : Mm) (target : Uint64) (fuel : Nat) (buf n : Uint64) (cons : Cons)
    (vm : Vm) :
    (readLog mm target fuel buf n cons vm).removed <+: cons.unread ∧
    (consoleReadLoop mm target fuel buf n cons vm).2.1 =
      { cons with
        r := cons.r + BitVec.ofNat 32 (readLog mm target fuel buf n cons vm).removed.length } := by
  have hnone (cons : Cons) : [] <+: cons.unread ∧
      cons = { cons with r := cons.r + BitVec.ofNat 32 0 } :=
    ⟨List.nil_prefix, by simp⟩
  induction fuel generalizing buf n cons vm with
  | zero => exact hnone cons
  | succ fuel ih =>
    rw [consoleReadLoop, readLog]
    split
    · exact hnone cons
    split
    · exact hnone cons
    rename_i hne
    have hone : [cons.buf (ringIndex cons.r)] <+: cons.unread ∧ { cons with r := cons.r + 1 } =
        { cons with r := cons.r + BitVec.ofNat 32 [cons.buf (ringIndex cons.r)].length } := by
      rw [unread_cons hne]
      exact ⟨⟨_, rfl⟩, rfl⟩
    dsimp only
    split
    · split
      · exact hnone cons
      · exact hone
    rw [copyToUser_byte_eq]
    cases hpa : userPa vm mm buf with
    | none => exact hone
    | some a =>
      dsimp only
      rw [if_neg (lt_irrefl 0), if_neg (lt_irrefl 0)]
      split
      · exact hone
      · obtain ⟨hstarts, hcons⟩ :=
          ih (buf + 1) (n - 1) { cons with r := cons.r + 1 }
            (vm.store a [cons.buf (ringIndex cons.r)])
        rw [hcons, unread_cons hne]
        refine ⟨List.cons_prefix_cons.2 ⟨rfl, hstarts⟩, ?_⟩
        rw [List.length_cons, Nat.add_comm, BitVec.ofNat_add, ← BitVec.add_assoc]
        rfl

/-- All bytes that a turn has to deliver can be stored. -/
def Delivers (vm : Vm) (mm : Mm) (cons : Cons) (buf n : Uint64) (fuel : Nat) : Prop :=
  ∀ i < (delivered fuel n cons).length, Reached vm mm buf i

instance (vm : Vm) (mm : Mm) (cons : Cons) (buf n : Uint64) (fuel : Nat) :
    Decidable (Delivers vm mm cons buf n fuel) :=
  inferInstanceAs (Decidable (∀ i < _, _))

/-- How a turn ends that has room for `n` bytes. -/
inductive ReadTurn (vm : Vm) (mm : Mm) (cons : Cons) (buf n : Uint64) (fuel : Nat) (log : ReadLog)
    (e : ReadEnd) : Prop
  /-- The bytes are stored, and the read is over; a `^D` after them may be used up. -/
  | done (hend : e = .done (n - BitVec.ofNat 64 log.stored.length))
    (hmapped : Delivers vm mm cons buf n fuel)
      (hstored : log.stored = delivered fuel n cons)
      (hremoved : log.removed = log.stored ∨ log.removed = log.stored ++ [C 'D'])
  /-- The bytes are stored, and the ring is empty. -/
  | waits (hend : e = .wait (buf + BitVec.ofNat 64 log.stored.length)
    (n - BitVec.ofNat 64 log.stored.length))
      (hmapped : Delivers vm mm cons buf n fuel) (hstored : log.stored = delivered fuel n cons)
      (hremoved : log.removed = log.stored)
  /-- A byte cannot be stored, and it is lost. -/
  | fails (hend : e = .done (n - BitVec.ofNat 64 log.stored.length))
    (hunmapped : ¬ Delivers vm mm cons buf n fuel)
      (c : Byte) (hc : c ≠ C 'D') (hremoved : log.removed = log.stored ++ [c])

/-- A turn that has nothing to deliver. -/
theorem delivers_of_nil (h : delivered fuel n cons = []) : Delivers vm mm cons buf n fuel := by
  rw [Delivers, h]
  exact fun i hi => absurd hi (Nat.not_lt_zero i)

/-- After its first byte a turn goes on like one from the next address. -/
theorem ReadTurn.next {a : Uint64} {c : Byte} {log : ReadLog} {e : ReadEnd}
    (hpa : userPa vm mm buf = some a)
    (hdelivered : delivered (fuel + 1) n cons =
      c :: delivered fuel (n - 1) { cons with r := cons.r + 1 })
    (h : ReadTurn (vm.store a [c]) mm { cons with r := cons.r + 1 } (buf + 1) (n - 1) fuel log e) :
    ReadTurn vm mm cons buf n (fuel + 1) ⟨c :: log.stored, c :: log.removed⟩ e := by
  have hmapped : Delivers vm mm cons buf n (fuel + 1) ↔
      Delivers (vm.store a [c]) mm { cons with r := cons.r + 1 } (buf + 1) (n - 1) fuel := by
    rw [Delivers, hdelivered, List.length_cons]
    constructor
    · intro h i hi
      exact (reached_congr (Vm.store_pte _ _ _) i).2
        (reached_succ.1 (h (i + 1) (Nat.succ_lt_succ hi))).2
    · intro h i hi
      have hsome : userPa vm mm buf ≠ none := by simp [hpa]
      cases i with
      | zero =>
        intro j hj
        rw [Nat.le_zero.1 hj]
        simpa using hsome
      | succ i =>
        exact reached_succ.2 ⟨hsome, (reached_congr (Vm.store_pte _ _ _) i).1
          (h i (Nat.lt_of_succ_lt_succ hi))⟩
  have hsub : n - 1 - BitVec.ofNat 64 log.stored.length = n - BitVec.ofNat 64
      (log.stored.length + 1) := by
    rw [Nat.add_comm, BitVec.ofNat_add]
    grind
  cases h with
  | done hend hm hstored hremoved =>
    refine .done ?_ (hmapped.2 hm) (by rw [hdelivered, hstored]) (hremoved.imp (congrArg (c :: ·))
      (congrArg (c :: ·)))
    rw [hend, hsub, List.length_cons]
  | waits hend hm hstored hremoved =>
    refine .waits ?_ (hmapped.2 hm) (by rw [hdelivered, hstored]) (congrArg (c :: ·) hremoved)
    rw [hend, hsub, List.length_cons, ofNat_succ_add]
  | fails hend hm c' hc' hremoved =>
    refine .fails ?_ (mt hmapped.1 hm) c' hc' (congrArg (c :: ·) hremoved)
    rw [hend, hsub, List.length_cons]

/-- **One turn.** -/
theorem readTurn (mm : Mm) (target : Uint64) (buf n : Uint64) (cons : Cons) (vm : Vm)
    (hfuel : cons.unread.length < fuel) :
    ReadTurn vm mm cons buf n fuel (readLog mm target fuel buf n cons vm)
      (consoleReadLoop mm target fuel buf n cons vm).1 := by
  induction fuel generalizing buf n cons vm with
  | zero => exact absurd hfuel (Nat.not_lt_zero _)
  | succ fuel ih =>
    have hzero : n = n - BitVec.ofNat 64 0 := (BitVec.sub_zero n).symm
    rw [consoleReadLoop, readLog]
    split
    · rename_i hn
      have hnil : delivered (fuel + 1) n cons = [] := by rw [delivered, if_pos hn]
      exact .done (congrArg _ hzero) (delivers_of_nil hnil) hnil.symm (.inl rfl)
    rename_i hn
    split
    · rename_i hempty
      have hnil : delivered (fuel + 1) n cons = [] := by rw [delivered, if_neg hn, if_pos hempty]
      refine .waits ?_ (delivers_of_nil hnil) hnil.symm rfl
      exact congrArg₂ _ (BitVec.add_zero buf).symm hzero
    rename_i hne
    rw [unread_cons hne, List.length_cons] at hfuel
    dsimp only
    split
    · rename_i heof
      have hnil : delivered (fuel + 1) n cons = [] := by
        rw [delivered, if_neg hn, if_neg hne]
        exact if_pos heof
      refine .done (congrArg _ hzero) (delivers_of_nil hnil) hnil.symm ?_
      split
      · exact .inl rfl
      · exact .inr (congrArg (· :: []) heof)
    rename_i heof
    rw [copyToUser_byte_eq]
    cases hpa : userPa vm mm buf with
    | none =>
      refine .fails (congrArg _ hzero) (fun hmapped => ?_) _ heof rfl
      have hpos : 0 < (delivered (fuel + 1) n cons).length := by
        rw [delivered, if_neg hn, if_neg hne]
        dsimp only
        rw [if_neg heof]
        split <;> simp
      exact hmapped 0 hpos 0 le_rfl (by simpa using hpa)
    | some a =>
      dsimp only
      rw [if_neg (lt_irrefl 0), if_neg (lt_irrefl 0)]
      split
      · rename_i hline
        have hone : delivered (fuel + 1) n cons = [cons.buf (ringIndex cons.r)] := by
          rw [delivered, if_neg hn, if_neg hne]
          dsimp only
          rw [if_neg heof, if_pos hline]
        refine .done rfl (fun i hi => ?_) hone.symm (.inl rfl)
        rw [hone] at hi
        intro j hj
        rw [Nat.lt_one_iff.1 (lt_of_le_of_lt hj hi)]
        simp [hpa]
      · rename_i hline
        refine .next hpa ?_ (ih _ _ _ _ (Nat.lt_of_succ_lt_succ hfuel))
        rw [delivered, if_neg hn, if_neg hne]
        dsimp only
        rw [if_neg heof, if_neg hline]

/-- It does not store more than it has room for. -/
theorem readLog_length (mm : Mm) (target : Uint64) (fuel : Nat) (buf n : Uint64) (cons : Cons)
    (vm : Vm) :
    ((readLog mm target fuel buf n cons vm).stored.length : Int) ≤ max n.toInt 0 := by
  induction fuel generalizing buf n cons vm with
  | zero => exact le_max_right _ _
  | succ fuel ih =>
    rw [readLog]
    split
    · exact le_max_right _ _
    rename_i hn
    obtain ⟨hpos, hpred⟩ := toInt_pred hn
    split
    · exact le_max_right _ _
    dsimp only
    split
    · exact le_max_right _ _
    split
    · exact le_max_right _ _
    split
    · exact le_max_of_le_left hpos
    · have hrest :=
        ih (buf + 1) (n - 1) { cons with r := cons.r + 1 }
          (copyToUser vm mm buf [cons.buf (ringIndex cons.r)]).2
      rw [hpred, max_eq_left (by omega)] at hrest
      rw [List.length_cons, Nat.cast_succ]
      exact le_max_of_le_left (by omega)

/-! ## A call -/

/-- What a turn finds. -/
structure ReadView where
  mm : Mm
  cons : Cons
  vm : Vm

/-- The turns of the loop take all that is in the ring. -/
def ReadView.turns (v : ReadView) : Nat := (v.cons.w - v.cons.r).toNat + 1

/-- What a call comes to: its result, and the bytes of all its turns. -/
structure ReadResult where
  ret : Uint64
  stored : List Byte
  removed : List Byte
  deriving DecidableEq

/-- The loop of `user_console_read` in the turns that find these; the last one of them returns. -/
def consoleRead (target : Uint64) : (buf n : Uint64) → List ReadView → Option ReadResult
  | _, _, [] => none
  | buf, n, v :: rest =>
    let log := readLog v.mm target v.turns buf n v.cons v.vm
    match (consoleReadLoop v.mm target v.turns buf n v.cons v.vm).1 with
    | .done n => if rest.isEmpty then some ⟨target - n, log.stored, log.removed⟩ else none
    | .wait buf n => (consoleRead target buf n rest).map fun r =>
        ⟨r.ret, log.stored ++ r.stored, log.removed ++ r.removed⟩

/-- `sys_read(fd, buf, n)`: `target` is an `uint`. -/
def sysRead (buf n : Uint64) (views : List ReadView) : Option ReadResult :=
  consoleRead ((n.setWidth 32).setWidth 64) buf n views

/-- What a turn with this log does: it stores the bytes one after the other in user memory, and
nothing else, and takes the others from the ring. -/
structure ReadView.Does (v : ReadView) (target buf n : Uint64) (log : ReadLog) : Prop where
  memory : (consoleReadLoop v.mm target v.turns buf n v.cons v.vm).2.2 =
    (copyToUser v.vm v.mm buf log.stored).2
  reached : ∀ i < log.stored.length, Reached v.vm v.mm buf i
  unread : log.removed <+: v.cons.unread
  ring : (consoleReadLoop v.mm target v.turns buf n v.cons v.vm).2.1 =
    { v.cons with r := v.cons.r + BitVec.ofNat 32 log.removed.length }

theorem ReadView.does (v : ReadView) (target buf n : Uint64) :
    v.Does target buf n (readLog v.mm target v.turns buf n v.cons v.vm) := by
  obtain ⟨hmemory, hreached⟩ := readLog_memory v.mm target v.turns buf n v.cons v.vm
  obtain ⟨hunread, hring⟩ := readLog_ring v.mm target v.turns buf n v.cons v.vm
  exact ⟨hmemory, hreached, hunread, hring⟩

/-- **The bytes of a call are those that its turns store and take**, each from where the one before
it has stopped. -/
inductive CallDoes (target : Uint64) : (buf n : Uint64) → List ReadView → ReadResult → Prop
  | last {buf n left : Uint64} {v : ReadView} {log : ReadLog} (does : v.Does target buf n log)
      (ends : (consoleReadLoop v.mm target v.turns buf n v.cons v.vm).1 = .done left) :
      CallDoes target buf n [v] ⟨target - left, log.stored, log.removed⟩
  | turn {buf n : Uint64} {v : ReadView} {rest : List ReadView} {log : ReadLog} {r : ReadResult}
      (does : v.Does target buf n log)
      (ends : (consoleReadLoop v.mm target v.turns buf n v.cons v.vm).1 =
        .wait (buf + BitVec.ofNat 64 log.stored.length) (n - BitVec.ofNat 64 log.stored.length))
      (later : CallDoes target (buf + BitVec.ofNat 64 log.stored.length)
        (n - BitVec.ofNat 64 log.stored.length) rest r) :
      CallDoes target buf n (v :: rest) ⟨r.ret, log.stored ++ r.stored, log.removed ++ r.removed⟩

/-- In every turn all bytes can be stored. -/
def AllDelivered : (buf n : Uint64) → List ReadView → Prop
  | _, _, [] => True
  | buf, n, v :: rest =>
    let len := BitVec.ofNat 64 (delivered v.turns n v.cons).length
    Delivers v.vm v.mm v.cons buf n v.turns ∧ AllDelivered (buf + len) (n - len) rest

instance decidableAllDelivered :
    (buf n : Uint64) → (views : List ReadView) → Decidable (AllDelivered buf n views)
  | _, _, [] => .isTrue trivial
  | buf, n, v :: rest =>
    have := decidableAllDelivered (buf + BitVec.ofNat 64 (delivered v.turns n v.cons).length)
      (n - BitVec.ofNat 64 (delivered v.turns n v.cons).length) rest
    inferInstanceAs (Decidable (_ ∧ _))

theorem toInt_sub_length {len : Nat} (h : (len : Int) ≤ max n.toInt 0) :
    (n - BitVec.ofNat 64 len).toInt = n.toInt - len := by
  have hlt := BitVec.toInt_lt (x := n)
  have hle := BitVec.le_toInt (x := n)
  have hlen : (BitVec.ofNat 64 len).toInt = len := by
    rw [BitVec.toInt_eq_toNat_of_lt, BitVec.toNat_ofNat, Nat.mod_eq_of_lt (by omega)]
    rw [BitVec.toNat_ofNat, Nat.mod_eq_of_lt (by omega)]
    omega
  rw [BitVec.toInt_sub, hlen]
  exact Int.bmod_eq_of_le (by omega) (by omega)

theorem ReadView.unread_lt (v : ReadView) : v.cons.unread.length < v.turns := by
  simp [Cons.unread, ReadView.turns]

/-- **A whole call**: its result, what it stores and what it takes. -/
theorem consoleRead_spec {views : List ReadView} {r : ReadResult}
    (h : consoleRead target buf n views = some r) :
    r.ret = target - (n - BitVec.ofNat 64 r.stored.length) ∧ (r.stored.length : Int) ≤
      max n.toInt 0 ∧
      (AllDelivered buf n views → r.removed = r.stored ∨ r.removed = r.stored ++ [C 'D']) ∧
      (¬ AllDelivered buf n views → ∃ c, c ≠ C 'D' ∧ r.removed = r.stored ++ [c]) := by
  induction views generalizing buf n r with
  | nil => cases h
  | cons v rest ih =>
    have hturn := readTurn v.mm target buf n v.cons v.vm v.unread_lt
    have hlength := readLog_length v.mm target v.turns buf n v.cons v.vm
    rw [consoleRead] at h
    generalize readLog v.mm target v.turns buf n v.cons v.vm = log at h hturn hlength
    have hdone (hend : (consoleReadLoop v.mm target v.turns buf n v.cons v.vm).1 =
        .done (n - BitVec.ofNat 64 log.stored.length)) :
        rest = [] ∧ r = ⟨target - (n - BitVec.ofNat 64 log.stored.length), log.stored,
          log.removed⟩ := by
      simp only [hend] at h
      split at h
      · rename_i hempty
        exact ⟨List.isEmpty_iff.1 hempty, (Option.some.inj h).symm⟩
      · cases h
    cases hturn with
    | done hend hmapped hstored hremoved =>
      obtain ⟨rfl, rfl⟩ := hdone hend
      exact ⟨rfl, hlength, fun _ => hremoved, fun hnot => absurd ⟨hmapped, trivial⟩ hnot⟩
    | fails hend hunmapped c hc hremoved =>
      obtain ⟨rfl, rfl⟩ := hdone hend
      exact ⟨rfl, hlength, fun hall => absurd hall.1 hunmapped, fun _ => ⟨c, hc, hremoved⟩⟩
    | waits hend hmapped hstored hremoved =>
      simp only [hend, Option.map_eq_some_iff] at h
      obtain ⟨later, hlater, rfl⟩ := h
      obtain ⟨hret, hle, hall, hfails⟩ := ih hlater
      rw [toInt_sub_length hlength] at hle
      have hrest : AllDelivered buf n (v :: rest) ↔
        AllDelivered (buf + BitVec.ofNat 64 log.stored.length)
          (n - BitVec.ofNat 64 log.stored.length) rest := by
        rw [hstored]
        exact and_iff_right hmapped
      rw [hrest, hremoved]
      refine ⟨?_, ?_, fun h => ?_, fun h => ?_⟩
      · rw [hret, List.length_append, BitVec.ofNat_add]
        grind
      · rw [List.length_append, Nat.cast_add]
        omega
      · simpa [List.append_assoc] using hall h
      · simpa [List.append_assoc] using hfails h

theorem consoleRead_does {views : List ReadView} {r : ReadResult}
    (h : consoleRead target buf n views = some r) : CallDoes target buf n views r := by
  induction views generalizing buf n r with
  | nil => cases h
  | cons v rest ih =>
    have hdoes := v.does target buf n
    have hturn := readTurn v.mm target buf n v.cons v.vm v.unread_lt
    rw [consoleRead] at h
    generalize readLog v.mm target v.turns buf n v.cons v.vm = log at h hdoes hturn
    have hdone {left : Uint64}
        (hend : (consoleReadLoop v.mm target v.turns buf n v.cons v.vm).1 = .done left) :
        CallDoes target buf n (v :: rest) r := by
      simp only [hend] at h
      split at h
      · rename_i hempty
        obtain rfl := List.isEmpty_iff.1 hempty
        obtain rfl := Option.some.inj h
        exact .last hdoes hend
      · cases h
    cases hturn with
    | done hend => exact hdone hend
    | fails hend => exact hdone hend
    | waits hend =>
      simp only [hend, Option.map_eq_some_iff] at h
      obtain ⟨later, hlater, rfl⟩ := h
      exact .turn hdoes hend (ih hlater)

/-- The turns of a call are the kernel's. -/
theorem turn_read {k : Kernel} {i : Slot} (hmm : (k.pool i).mm = some mm) :
    let v : ReadView := ⟨mm, k.cons, k.vm⟩
    let r := consoleReadLoop v.mm target v.turns buf n v.cons v.vm
    (Blocking.read buf n target).turn i k = some
      (match r.1 with
        | .done n => .ret (target - n)
        | .wait buf n => .sleep (.read buf n target), { k with cons := r.2.1, vm := r.2.2 }) := by
  have hget : getMm i k = some (mm, k) := getMm_eq_some.2 ⟨hmm, rfl⟩
  have hturns : ReadView.turns ⟨mm, k.cons, k.vm⟩ = (k.cons.w - k.cons.r).toNat + 1 := rfl
  refine bind_eq_some.2 ⟨mm, k, hget, ?_⟩
  rw [get_bind, hturns]
  generalize consoleReadLoop mm target ((k.cons.w - k.cons.r).toNat + 1) buf n k.cons k.vm = out
  obtain ⟨e, cons, vm⟩ := out
  cases e <;> rfl

/-! ## What a call reports and consumes -/

/-- A negative error is an `int`. -/
def IsError (ret : Uint64) : Prop := -2 ^ 31 ≤ ret.toInt ∧ ret.toInt < 0

/-- A read of `n` bytes reports what it stored, and takes no more from the ring than that and one
`^D`. -/
structure ReadRight (n : Uint64) (r : ReadResult) : Prop where
  ret : 0 ≤ r.ret.toInt ∧ r.ret.toInt ≤ max n.toInt 0 ∧ r.ret.toInt = r.stored.length ∨
    IsError r.ret ∧ r.stored = []
  removed : r.removed = r.stored ∨ r.removed = r.stored ++ [C 'D']

/-- What `sys_read` returns of a length that is not that of an `uint` is not what it stored. -/
theorem ret_of_large {len : Nat} {ret : Uint64}
    (hret : ret = (n.setWidth 32).setWidth 64 - (n - BitVec.ofNat 64 len))
    (hlarge : ¬ n.toNat < 2 ^ 32) : ret.toInt ≠ len ∧ (len = 0 → ¬ IsError ret) := by
  have hlt := n.isLt
  have htoNat : (ret.toNat : Int) % 2 ^ 64 = (n.toNat % 2 ^ 32 - (n.toNat - len)) % 2 ^ 64 := by
    rw [hret]
    simp only [BitVec.toNat_sub, BitVec.toNat_setWidth, BitVec.toNat_ofNat]
    push_cast
    omega
  have hsmall := ret.isLt
  rw [IsError, BitVec.toInt_eq_toNat_cond]
  split <;> omega

/-- **A read reports and consumes exactly what it delivers if and only if its length is that of an
`uint` and all bytes it comes to can be stored.** -/
theorem sysRead_right {views : List ReadView} {r : ReadResult} (h : sysRead buf n views = some r) :
    CallDoes ((n.setWidth 32).setWidth 64) buf n views r ∧
      (ReadRight n r ↔ (0 ≤ n.toInt ∧ n.toInt < 2 ^ 32) ∧ AllDelivered buf n views) := by
  refine ⟨consoleRead_does h, ?_⟩
  obtain ⟨hret, hlen, hall, hfails⟩ := consoleRead_spec h
  have hlt := n.isLt
  have hrange : 0 ≤ n.toInt ∧ n.toInt < 2 ^ 32 ↔ n.toNat < 2 ^ 32 := by
    rw [BitVec.toInt_eq_toNat_cond]
    split <;> omega
  rw [hrange]
  constructor
  · intro hright
    constructor
    · by_contra hlarge
      obtain ⟨hne, hnone⟩ := ret_of_large hret hlarge
      rcases hright.ret with ⟨-, -, heq⟩ | ⟨herror, hstored⟩
      · exact hne heq
      · exact hnone (by rw [hstored]; rfl) herror
    · by_contra hnot
      obtain ⟨c, hc, hremoved⟩ := hfails hnot
      rcases hright.removed with heq | heq
      · rw [hremoved] at heq
        simp at heq
      · rw [hremoved] at heq
        exact hc (by simpa using heq)
  · rintro ⟨hsmall, hdelivered⟩
    have hn : n.toInt = n.toNat := BitVec.toInt_eq_toNat_of_lt (by omega)
    rw [hn] at hlen
    have hvalue : r.ret.toInt = r.stored.length := by
      have htarget : (n.setWidth 32).setWidth 64 = n := by
        apply BitVec.eq_of_toNat_eq
        rw [BitVec.toNat_setWidth, BitVec.toNat_setWidth]
        omega
      have hlength : r.ret = BitVec.ofNat 64 r.stored.length := by
        rw [hret, htarget]
        grind
      have hnat : (BitVec.ofNat 64 r.stored.length).toNat = r.stored.length := by
        rw [BitVec.toNat_ofNat]
        omega
      rw [hlength, BitVec.toInt_eq_toNat_of_lt (by omega), hnat]
    exact ⟨.inl ⟨by omega, by omega, hvalue⟩, hall hdelivered⟩

/-- The line `hi` is in the ring. -/
def lineRing : Cons := ⟨fun i => [0x68, 0x69, newline].getD i.val 0, 0, 3, 3⟩

/-- It is read to a buffer that is mapped. -/
theorem sysRead_right_line :
    ∃ mm vm r, sysRead 0x1000 100 [⟨mm, lineRing, vm⟩] = some r ∧ r.ret = 3 ∧
    r.stored = [0x68, 0x69, newline] ∧ CallDoes 100 0x1000 100 [⟨mm, lineRing, vm⟩] r ∧
    ReadRight 100 r := by
  have hrun : (mmWith ⟨7, 0x1000, 0x2000, PTE_R ||| PTE_W ||| PTE_U⟩ initVm).map
      (fun p => p.1.map fun mm => (sysRead 0x1000 100 [⟨mm, lineRing, p.2⟩]).map fun r =>
        decide (r.ret = 3 ∧
        r.stored = [0x68, 0x69, newline] ∧ AllDelivered 0x1000 100 [⟨mm, lineRing, p.2⟩])) = some
          (some (some true)) := by
    decide +kernel
  simp only [Option.map_eq_some_iff, decide_eq_true_eq] at hrun
  obtain ⟨⟨_, vm⟩, -, mm, rfl, r, hread, hret, hstored, hdelivered⟩ := hrun
  obtain ⟨hdoes, hright⟩ := sysRead_right hread
  exact ⟨mm, vm, r, hread, hret, hstored, hdoes, hright.2 ⟨by decide, hdelivered⟩⟩

/-- An address space without pages. -/
def noPages : Mm := ⟨1, 0x100000, [], 1⟩

/-- A read of `-1` bytes returns `2^32`, and a read to a buffer that is not mapped loses a byte. -/
theorem sysRead_wrong :
    (∃ r, sysRead 0x1000 (ofInt (-1)) [⟨noPages, lineRing, initVm⟩] = some r ∧
      ¬ ReadRight (ofInt (-1)) r) ∧
      ∃ r, sysRead 0x1000 100 [⟨noPages, lineRing, initVm⟩] = some r ∧ ¬ ReadRight 100 r := by
  constructor
  · refine ⟨⟨0x100000000, [], []⟩, by decide +kernel, fun h => ?_⟩
    rcases h.ret with ⟨-, hle, -⟩ | ⟨⟨-, hneg⟩, -⟩
    · exact absurd hle (by decide)
    · exact absurd hneg (by decide)
  · refine ⟨⟨0, [], [0x68]⟩, by decide +kernel, fun h => ?_⟩
    exact absurd h.removed (by decide)

end SignalOS
