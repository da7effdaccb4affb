import SignalOS.Vm.Words

/-!
# The user heap

`malloc`, `free` and `morecore` of `umalloc.c` on the bytes of a process's memory.  The
loops are given a number of turns; `none` is a loop that was not done by then.

* `UHeap` — the memory, the two static variables and the program break.
* `sbrk` — what the system call makes of its `int` argument, by what the kernel replies.
* `freeScan`, `free`, `morecore`, `mallocLoop`, `malloc` — the source's functions and
  loops.
* `malloc_mono`, `free_mono` — a call that returns does the same when it is given more turns.
* `Wrote` — a header was written: what it holds then, and that nothing else changed.
-/

namespace SignalOS

/-! ## Headers -/

/-- `sizeof(Header)`. -/
def HEADER : Uint64 := 16

/-- `p->s.ptr`. -/
def sPtr (m : Uint64 → Byte) (p : Uint64) : Uint64 := loadWord m p

/-- `p->s.size`. -/
def sSize (m : Uint64 → Byte) (p : Uint64) : BitVec 32 := loadUint m (p + 8)

/-- `p->s.ptr = v`. -/
def setPtr (m : Uint64 → Byte) (p v : Uint64) : Uint64 → Byte := storeWord m p v

/-- `p->s.size = v`. -/
def setSize (m : Uint64 → Byte) (p : Uint64) (v : BitVec 32) : Uint64 → Byte :=
  storeUint m (p + 8) v

/-- `p + n` for a pointer to headers. -/
def hdrAdd (p : Uint64) (n : BitVec 32) : Uint64 := p + n.setWidth 64 * HEADER

/-! ## The system call -/

/-- What the kernel makes of one request to move the break. -/
inductive SbrkReply where
  | granted
  | enomem
  | einval
  deriving DecidableEq

/-- `sbrk(increment)`: what it returns, and the break after it. -/
def sbrk (reply : SbrkReply) (increment : Int) (brk : Uint64) : Uint64 × Uint64 :=
  match reply with
  | .granted => (brk, brk + ofInt increment)
  | .enomem => (ofInt (-ENOMEM), brk)
  | .einval => (ofInt (-EINVAL), brk)

/-! ## The allocator -/

/-- The memory of a process, as its allocator sees it. -/
structure UHeap where
  mem : Uint64 → Byte
  /-- The address of the static variable `base`. -/
  base : Uint64
  freep : Uint64
  /-- The program break. -/
  brk : Uint64

/-- The loop of `free`: the block of the free list behind which `bp` belongs. -/
def freeScan (m : Uint64 → Byte) (bp : Uint64) : Nat → Uint64 → Option Uint64
  | 0, _ => none
  | n + 1, p =>
    if bp > p ∧ bp < sPtr m p then some p
    else if p ≥ sPtr m p ∧ (bp > p ∨ bp < sPtr m p) then some p
    else freeScan m bp n (sPtr m p)

/-- Join `bp`, to be put behind `p`, with the block after it, or link it to that one. -/
def joinNext (m : Uint64 → Byte) (p bp : Uint64) : Uint64 → Byte :=
  if hdrAdd bp (sSize m bp) = sPtr m p then
    let m := setSize m bp (sSize m bp + sSize m (sPtr m p))
    setPtr m bp (sPtr m (sPtr m p))
  else setPtr m bp (sPtr m p)

/-- Join `bp` with the block `p` before it, or link that one to it. -/
def joinPrev (m : Uint64 → Byte) (p bp : Uint64) : Uint64 → Byte :=
  if hdrAdd p (sSize m p) = bp then
    let m := setSize m p (sSize m p + sSize m bp)
    setPtr m p (sPtr m bp)
  else setPtr m p bp

/-- `free(ap)`. -/
def free (fuel : Nat) (h : UHeap) (ap : Uint64) : Option UHeap :=
  let bp := ap - HEADER
  (freeScan h.mem bp fuel h.freep).map fun p =>
    { h with mem := joinPrev (joinNext h.mem p bp) p bp, freep := p }

/-- `morecore(nu)`. -/
def morecore (fuel : Nat) (reply : SbrkReply) (h : UHeap) (nu : BitVec 32) :
    Option (Uint64 × UHeap) :=
  let nu := if nu < 4096 then 4096 else nu
  let r := sbrk reply (toInt (nu.setWidth 64 * HEADER)) h.brk
  let h := { h with brk := r.2 }
  if r.1 = ofInt (-1) then some (0, h)
  else
    let hp := r.1
    (free fuel { h with mem := setSize h.mem hp nu } (hp + HEADER)).map fun h => (h.freep, h)

/-- `nunits` of `malloc(nbytes)`; `sizeof` makes the sum one of 64 bits. -/
def nunitsOf (nbytes : BitVec 32) : BitVec 32 :=
  ((nbytes.setWidth 64 + HEADER - 1) / HEADER + 1).setWidth 32

/-- Take `nunits` units from the block `p`, which comes behind `prevp`. -/
def carve (h : UHeap) (nunits : BitVec 32) (prevp p : Uint64) : Uint64 × UHeap :=
  if sSize h.mem p = nunits then
    (p + HEADER, { h with mem := setPtr h.mem prevp (sPtr h.mem p), freep := prevp })
  else
    let m := setSize h.mem p (sSize h.mem p - nunits)
    let p := hdrAdd p (sSize m p)
    (p + HEADER, { h with mem := setSize m p nunits, freep := prevp })

/-- The loop of `malloc`. -/
def mallocLoop (fuel : Nat) (reply : SbrkReply) (nunits : BitVec 32) : Nat → UHeap → Uint64 →
    Uint64 → Option (Uint64 × UHeap)
  | 0, _, _, _ => none
  | n + 1, h, prevp, p =>
    if sSize h.mem p ≥ nunits then some (carve h nunits prevp p)
    else if p = h.freep then
      (morecore fuel reply h nunits).bind fun r =>
        if r.1 = 0 then some r else mallocLoop fuel reply nunits n r.2 r.1 (sPtr r.2.mem r.1)
    else mallocLoop fuel reply nunits n h p (sPtr h.mem p)

/-- The first lines of `malloc`: before the first call the free list is empty. -/
def mallocInit (h : UHeap) : UHeap :=
  if h.freep = 0 then
    { h with mem := setSize (setPtr h.mem h.base h.base) h.base 0, freep := h.base } else h

/-- `malloc(nbytes)`. -/
def malloc (fuel : Nat) (reply : SbrkReply) (h : UHeap) (nbytes : BitVec 32) :
    Option (Uint64 × UHeap) :=
  let h := mallocInit h
  mallocLoop fuel reply (nunitsOf nbytes) fuel h h.freep (sPtr h.mem h.freep)

/-! ## More turns change nothing -/

section Turns

variable {m : Uint64 → Byte} {bp p q prevp : Uint64} {n k fuel fuel' : Nat} {h h' : UHeap}
  {nunits : BitVec 32}
  {reply : SbrkReply} {r : Uint64 × UHeap}

theorem freeScan_mono (h : freeScan m bp n p = some q) (hle : n ≤ k) :
    freeScan m bp k p = some q := by
  induction n generalizing p k with
  | zero => cases h
  | succ n ih =>
    obtain ⟨k, rfl⟩ : ∃ j, k = j + 1 := ⟨k - 1, by omega⟩
    rw [freeScan] at h ⊢
    split
    · next hin => rwa [if_pos hin] at h
    · next hin =>
      rw [if_neg hin] at h
      split
      · next hout => rwa [if_pos hout] at h
      · next hout =>
        rw [if_neg hout] at h
        exact ih h (Nat.le_of_succ_le_succ hle)

theorem free_mono {ap : Uint64} (hfree : free fuel h ap = some h') (hle : fuel ≤ fuel') :
    free fuel' h ap = some h' := by
  obtain ⟨p, hp, hdone⟩ := Option.map_eq_some_iff.1 hfree
  rw [free, freeScan_mono hp hle]
  exact congrArg some hdone

theorem morecore_mono (hmore : morecore fuel reply h nunits = some r) (hle : fuel ≤ fuel') :
    morecore fuel' reply h nunits = some r := by
  rw [morecore] at hmore ⊢
  simp only at hmore ⊢
  generalize (if nunits < 4096 then 4096 else nunits) = nu at hmore ⊢
  split
  · next heq => rwa [if_pos heq] at hmore
  · next hne =>
    rw [if_neg hne] at hmore
    obtain ⟨h', hfree, hdone⟩ := Option.map_eq_some_iff.1 hmore
    rw [free_mono hfree hle]
    exact congrArg some hdone

theorem mallocLoop_mono (hloop : mallocLoop fuel reply nunits n h prevp p = some r) (hle : n ≤ k)
    (hfuel : fuel ≤ fuel') : mallocLoop fuel' reply nunits k h prevp p = some r := by
  induction n generalizing h prevp p k with
  | zero => cases hloop
  | succ n ih =>
    obtain ⟨k, rfl⟩ : ∃ j, k = j + 1 := ⟨k - 1, by omega⟩
    have hle' : n ≤ k := Nat.le_of_succ_le_succ hle
    rw [mallocLoop] at hloop ⊢
    split
    · next hge => rwa [if_pos hge] at hloop
    · next hge =>
      rw [if_neg hge] at hloop
      split
      · next heq =>
        rw [if_pos heq] at hloop
        obtain ⟨r', hmore, hrest⟩ := Option.bind_eq_some_iff.1 hloop
        rw [morecore_mono hmore hfuel, Option.bind_some]
        split
        · next hzero => rwa [if_pos hzero] at hrest
        · next hzero =>
          rw [if_neg hzero] at hrest
          exact ih hrest hle'
      · next hne =>
        rw [if_neg hne] at hloop
        exact ih hloop hle'

theorem malloc_mono {nbytes : BitVec 32} (hmalloc : malloc fuel reply h nbytes = some r)
    (hle : fuel ≤ fuel') :
    malloc fuel' reply h nbytes = some r :=
  mallocLoop_mono hmalloc hle hle

end Turns

/-! ## Writing a header -/

/-- The memory with the header at `a` overwritten. -/
structure Wrote (m m' : Uint64 → Byte) (a ptr : Uint64) (size : BitVec 32) : Prop where
  ptr : sPtr m' a = ptr
  size : sSize m' a = size
  rest : Differ a.toNat (a.toNat + 16) m m'

section Wrote

variable {m m' : Uint64 → Byte} {a b ptr v : Uint64} {size w : BitVec 32}

theorem toNat_add_eight (ha : a.toNat + 16 ≤ 2 ^ 64) : (a + 8).toNat = a.toNat + 8 := by
  rw [BitVec.toNat_add, show (8 : Uint64).toNat = 8 from rfl]
  omega

theorem Wrote.setPtr (ha : a.toNat + 16 ≤ 2 ^ 64) : Wrote m (setPtr m a v) a v (sSize m a) := by
  have hstore := @Differ.storeWord m a v (by omega)
  have hsize := toNat_add_eight ha
  exact ⟨loadWord_storeWord m a v, hstore.loadUint (by omega) (by omega),
    hstore.mono le_rfl (by omega)⟩

theorem Wrote.setSize (ha : a.toNat + 16 ≤ 2 ^ 64) : Wrote m (setSize m a w) a (sPtr m a) w := by
  have hsize := toNat_add_eight ha
  have hstore := @Differ.storeUint m (a + 8) w (by omega)
  exact ⟨hstore.loadWord (by omega) (by omega), loadUint_storeUint m (a + 8) w,
    hstore.mono (by omega) (by omega)⟩

/-- Two writes to one header. -/
theorem Wrote.trans {m'' : Uint64 → Byte} {ptr' : Uint64} {size' : BitVec 32}
    (h : Wrote m m' a ptr size)
    (h' : Wrote m' m'' a ptr' size') : Wrote m m'' a ptr' size' :=
  ⟨h'.ptr, h'.size, h.rest.trans h'.rest⟩

/-- Other headers are as they were. -/
theorem Wrote.other (h : Wrote m m' a ptr size) (hb : b.toNat + 16 ≤ 2 ^ 64)
    (hab : a.toNat + 16 ≤ b.toNat ∨ b.toNat + 16 ≤ a.toNat) : sPtr m' b = sPtr m b ∧
    sSize m' b = sSize m b := by
  have hsize := toNat_add_eight hb
  exact ⟨h.rest.loadWord (by omega) (by omega), h.rest.loadUint (by omega) (by omega)⟩

theorem toNat_hdrAdd {n : BitVec 32} (hfit : a.toNat + 16 * n.toNat < 2 ^ 64) :
    (hdrAdd a n).toNat = a.toNat + 16 * n.toNat := by
  have hn : n.toNat < 2 ^ 32 := n.isLt
  rw [hdrAdd, BitVec.toNat_add, BitVec.toNat_mul, BitVec.toNat_setWidth,
    show HEADER.toNat = 16 from rfl]
  omega

theorem toNat_nunitsOf (nbytes : BitVec 32) :
    (nunitsOf nbytes).toNat = (nbytes.toNat + 15) / 16 + 1 := by
  have hn : nbytes.toNat < 2 ^ 32 := nbytes.isLt
  have hsum : (nbytes.setWidth 64 + HEADER - 1).toNat = nbytes.toNat + 15 := by
    rw [BitVec.toNat_sub, BitVec.toNat_add, BitVec.toNat_setWidth, show HEADER.toNat = 16 from rfl,
      show (1 : Uint64).toNat = 1 from rfl]
    omega
  rw [nunitsOf, BitVec.toNat_setWidth, BitVec.toNat_add, BitVec.toNat_udiv, hsum,
    show HEADER.toNat = 16 from rfl,
    show (1 : Uint64).toNat = 1 from rfl]
  omega

end Wrote

end SignalOS
