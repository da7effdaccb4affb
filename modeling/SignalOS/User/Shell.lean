import Mathlib.Data.List.Basic
import Mathlib.Data.List.GetD
import Mathlib.Data.List.Nodup
import Mathlib.Data.List.TakeWhile
import Mathlib.Logic.Function.Basic
import SignalOS.User.Printf

/-!
# The words of a line of the shell

`main` of `sh.c`, from the prompt to `fork`, with what it calls of the user library.

* `gets`, `strlen`, `strncmp`, `skipSpaces`, `skipWord`, `splitLoop`, `turn` — the code.  An access
  outside of `buf` and a write outside of `argv` are errors.
* `IsRun` — a maximal run of non-space characters; `wordStarts` — where the words of a line begin.
* `splits_iff` — **a line is split into its words if it has at most 31**.
-/

namespace SignalOS.Shell

/-- The static `buf` and `argv` of `main`.  An entry of `argv` is an index of `buf`; `NULL` is
`none`. -/
structure Statics where
  buf : Nat → Byte
  argv : Nat → Option Nat

/-- Why the code does not get on: it leaves `buf` or `argv`, or a loop has not ended. -/
inductive Stuck where
  | buffer
  | argv
  | fuel
  deriving DecidableEq

/-! ## The code -/

/-- `buf[i]`. -/
def Statics.load (sh : Statics) (i : Nat) : Except Stuck Byte :=
  if i < 200 then .ok (sh.buf i) else .error .buffer

/-- `buf[i] = c`. -/
def Statics.store (sh : Statics) (i : Nat) (c : Byte) : Except Stuck Statics :=
  if i < 200 then .ok { sh with buf := Function.update sh.buf i c } else .error .buffer

/-- `argv[n] = p`. -/
def Statics.setArgv (sh : Statics) (n : Nat) (p : Option Nat) : Except Stuck Statics :=
  if n < 32 then .ok { sh with argv := Function.update sh.argv n p } else .error .argv

/-- The characters that end a line. -/
def IsEnd (c : Byte) : Prop := c = chr '\n' ∨ c = chr '\r'

instance (c : Byte) : Decidable (IsEnd c) := inferInstanceAs (Decidable (_ ∨ _))

/-- The loop of `gets`; `read` gives the bytes of a list, and fails after them. -/
def getsLoop (max : Nat) (sh : Statics) (i : Nat) : List Byte → Except Stuck (Statics × Nat)
  | [] => .ok (sh, i)
  | c :: input =>
    if i + 1 < max then do
      let sh ← sh.store i c
      if IsEnd c then return (sh, i + 1) else getsLoop max sh (i + 1) input
    else .ok (sh, i)

/-- `gets(buf, max)`. -/
def gets (sh : Statics) (max : Nat) (input : List Byte) : Except Stuck Statics := do
  let (sh, i) ← getsLoop max sh 0 input
  sh.store i 0

/-- The loop of `strlen(buf)`. -/
def strlen (sh : Statics) : Nat → Nat → Except Stuck Nat
  | 0, _ => .error .fuel
  | fuel + 1, n => do
    if (← sh.load n) ≠ 0 then strlen sh fuel (n + 1) else return n

/-- The literal `"quit"`. -/
def quit : List Byte := "quit".toList.map chr

/-- The loop of `strncmp(buf, r, n + 1)`, from the characters at `i` on. -/
def strncmp (sh : Statics) (r : List Byte) : Nat → Nat → Except Stuck Int
  | 0, i => return ((← sh.load i).toNat : Int) - (r.getD i 0).toNat
  | n + 1, i => do
    let c ← sh.load i
    if c ≠ 0 ∧ r.getD i 0 ≠ 0 ∧ c = r.getD i 0 then strncmp sh r n (i + 1)
    else return (c.toNat : Int) - (r.getD i 0).toNat

/-- `while (*s == ' ') *(s++) = 0`. -/
def skipSpaces : Nat → Statics → Nat → Except Stuck (Statics × Nat)
  | 0, _, _ => .error .fuel
  | fuel + 1, sh, s => do
    if (← sh.load s) = chr ' ' then skipSpaces fuel (← sh.store s 0) (s + 1) else return (sh, s)

/-- `while (*s && *s != ' ') s++`. -/
def skipWord (sh : Statics) : Nat → Nat → Except Stuck Nat
  | 0, _ => .error .fuel
  | fuel + 1, s => do
    let c ← sh.load s
    if c ≠ 0 ∧ c ≠ chr ' ' then skipWord sh fuel (s + 1) else return s

/-- The loop that fills `argv`. -/
def splitLoop : Nat → Statics → Nat → Nat → Except Stuck Statics
  | 0, _, _, _ => .error .fuel
  | fuel + 1, sh, argc, s => do
    let (sh, s) ← skipSpaces 200 sh s
    if (← sh.load s) ≠ 0 then
      let sh ← sh.setArgv argc (some s)
      splitLoop fuel sh (argc + 1) (← skipWord sh 200 s)
    else sh.setArgv argc none

/-- The last `\r` or `\n` of the `len` characters of the string is removed. -/
def chop (sh : Statics) (len : Nat) : Except Stuck Statics := do
  if len > 0 then
    if IsEnd (← sh.load (len - 1)) then sh.store (len - 1) 0 else return sh
  else return sh

/-- What becomes of a line: `main` exits, or comes to `fork`. -/
inductive Outcome where
  | exits
  | forks (sh : Statics)

/-- A turn of the loop of `main`, up to `fork`. -/
def turn (sh : Statics) (input : List Byte) : Except Stuck Outcome := do
  let sh ← gets sh 200 input
  let sh ← chop sh (← strlen sh 200 0)
  if (← strncmp sh quit 3 0) = 0 then return .exits
  return .forks (← splitLoop 200 sh 0 0)

/-! ## What it should do -/

/-- The line that `gets` reads, without its end. -/
def lineOf (input : List Byte) : List Byte := (input.take 199).takeWhile fun c => ¬ IsEnd c

/-- The `w` characters from `p` on are a maximal run of non-space characters. -/
structure IsRun (line : List Byte) (p w : Nat) : Prop where
  pos : 0 < w
  inside : p + w ≤ line.length
  word : ∀ j, j < w → line.getD (p + j) 0 ≠ chr ' '
  left : p = 0 ∨ line.getD (p - 1) 0 = chr ' '
  right : p + w = line.length ∨ line.getD (p + w) 0 = chr ' '

/-- `argv` is the words of the line, which begin at `starts`, each a string in `buf`. -/
structure Splits (line : List Byte) (starts : List Nat) (sh : Statics) : Prop where
  sorted : starts.Pairwise (· < ·)
  runs : ∀ p, p ∈ starts ↔ ∃ w, IsRun line p w
  argv : ∀ k, k ≤ starts.length → sh.argv k = starts[k]?
  word : ∀ p w, IsRun line p w → ∀ j, j < w → sh.buf (p + j) = line.getD (p + j) 0 ∧
    sh.buf (p + j) ≠ 0
  ended : ∀ p w, IsRun line p w → sh.buf (p + w) = 0

/-- The shell exits where it is told to, and splits the other lines. -/
inductive Right (line : List Byte) : Outcome → Prop where
  | exits : line.take 4 = quit → Right line .exits
  | forks {starts : List Nat} {sh : Statics} : Splits line starts sh → Right line (.forks sh)

/-- A word begins at `p`. -/
def IsStart (line : List Byte) (p : Nat) : Prop :=
  line.getD p 0 ≠ chr ' ' ∧ (p = 0 ∨ line.getD (p - 1) 0 = chr ' ')

instance (line : List Byte) (p : Nat) : Decidable (IsStart line p) :=
  inferInstanceAs (Decidable (_ ∧ _))

/-- Where the words of a line begin, from `p` on. -/
def startsFrom (line : List Byte) (p : Nat) : List Nat :=
  (List.range' p (line.length - p)).filter fun i => IsStart line i

/-- Where the words of a line begin. -/
def wordStarts (line : List Byte) : List Nat := startsFrom line 0

section Accesses

variable {sh : Statics} {i : Nat}

theorem Statics.load_eq (h : i < 200) : sh.load i = .ok (sh.buf i) := if_pos h

theorem Statics.store_eq (h : i < 200) (c : Byte) :
    sh.store i c = .ok { sh with buf := Function.update sh.buf i c } := if_pos h

theorem Statics.setArgv_eq (h : i < 32) (p : Option Nat) :
    sh.setArgv i p = .ok { sh with argv := Function.update sh.argv i p } := if_pos h

theorem Statics.setArgv_error (h : 32 ≤ i) (p : Option Nat) : sh.setArgv i p = .error .argv :=
  if_neg (not_lt.2 h)

/-- The first step of a computation that gets on. -/
theorem ok_bind {α β : Type} (a : α) (f : α → Except Stuck β) : (Except.ok a >>= f) = f a := rfl

theorem error_bind {α β : Type} (e : Stuck) (f : α → Except Stuck β) :
    (Except.error e >>= f) = .error e :=
  rfl

end Accesses

/-! ## The words of a line -/

section Words

variable {line : List Byte} {p w : Nat}

theorem exists_run_of_start (h : IsStart line p) (hp : p < line.length) : ∃ w, IsRun line p w := by
  -- the word ends at the first space or at the end of the line
  have hend : ∃ w, p + w = line.length ∨ line.getD (p + w) 0 = chr ' ' :=
    ⟨line.length - p, .inl (by omega)⟩
  have hmin (j : Nat) (hj : j < Nat.find hend) :
      ¬ (p + j = line.length ∨ line.getD (p + j) 0 = chr ' ') :=
    Nat.find_min hend hj
  refine ⟨Nat.find hend, ?_, ?_, fun j hj => fun hsp => hmin j hj (.inr hsp), h.2,
    Nat.find_spec hend⟩
  · refine Nat.pos_of_ne_zero fun hzero => ?_
    rcases Nat.find_spec hend with heq | hsp
    · omega
    · rw [hzero] at hsp
      exact h.1 hsp
  · by_contra hlong
    exact hmin (line.length - p) (by omega) (.inl (by omega))

theorem IsRun.isStart (h : IsRun line p w) : IsStart line p := ⟨h.word 0 h.pos, h.left⟩

/-- **The words are the runs.** -/
theorem mem_wordStarts : p ∈ wordStarts line ↔ ∃ w, IsRun line p w := by
  simp only [wordStarts, startsFrom, List.mem_filter, List.mem_range'_1, decide_eq_true_eq]
  constructor
  · rintro ⟨⟨-, hp⟩, hstart⟩
    exact exists_run_of_start hstart (by omega)
  · rintro ⟨w, hrun⟩
    have hinside := hrun.inside
    have hpos := hrun.pos
    exact ⟨⟨Nat.zero_le _, by omega⟩, hrun.isStart⟩

theorem wordStarts_sorted : (wordStarts line).Pairwise (· < ·) :=
  (List.pairwise_lt_range').filter _

/-- Every non-space character is in a word. -/
theorem exists_run {k : Nat} (hk : k < line.length) (h : line.getD k 0 ≠ chr ' ') :
    ∃ p w, IsRun line p w ∧ p ≤ k ∧ k < p + w := by
  -- by induction, back to the character the word begins with
  have hback (k : Nat) (hsp : line.getD k 0 ≠ chr ' ') :
      ∃ p, IsStart line p ∧ p ≤ k ∧ ∀ j, p ≤ j → j ≤ k → line.getD j 0 ≠ chr ' ' := by
    induction k with
    | zero =>
      refine ⟨0, ⟨hsp, .inl rfl⟩, le_rfl, fun j _ hj => ?_⟩
      rwa [Nat.le_zero.1 hj]
    | succ k ih =>
      by_cases hleft : line.getD k 0 = chr ' '
      · refine ⟨k + 1, ⟨hsp, .inr hleft⟩, le_rfl, fun j hj hj' => ?_⟩
        rwa [show j = k + 1 by omega]
      · obtain ⟨p, hstart, hp, hword⟩ := ih hleft
        refine ⟨p, hstart, by omega, fun j hj hj' => ?_⟩
        by_cases heq : j = k + 1
        · rwa [heq]
        · exact hword j hj (by omega)
  obtain ⟨p, hstart, hp, hword⟩ := hback k h
  obtain ⟨w, hrun⟩ := exists_run_of_start hstart (by omega)
  refine ⟨p, w, hrun, hp, ?_⟩
  by_contra hshort
  rcases hrun.right with hall | hsp
  · omega
  · exact hword (p + w) (by omega) (by omega) hsp

/-- Between two words there is nothing to find. -/
theorem startsFrom_skip {q : Nat} (hpq : p ≤ q) (hq : q ≤ line.length)
    (h : ∀ i, p ≤ i → i < q → ¬ IsStart line i) : startsFrom line p = startsFrom line q := by
  have hsplit : List.range' p (line.length - p) = List.range' p (q - p) ++ List.range' q
      (line.length - q) := by
    rw [show line.length - p = (q - p) + (line.length - q) by omega, ← List.range'_append_1]
    rw [show p + (q - p) = q by omega]
  rw [startsFrom, hsplit, List.filter_append, List.filter_eq_nil_iff.2, List.nil_append]
  · rfl
  · intro i hi
    obtain ⟨hle, hlt⟩ := List.mem_range'_1.1 hi
    simpa using h i hle (by omega)

theorem startsFrom_cons (hp : p < line.length) (h : IsStart line p) :
    startsFrom line p = p :: startsFrom line (p + 1) := by
  have hlen : line.length - p = (line.length - (p + 1)) + 1 := by omega
  rw [startsFrom, hlen, List.range'_succ, List.filter_cons_of_pos (by simpa using h)]
  rfl

theorem startsFrom_length : startsFrom line line.length = [] := by
  simp [startsFrom]

end Words

/-! ## The line in the buffer -/

/-- `buf` holds the line as a string of which the spaces before `p` are blanked. -/
def Scanned (line : List Byte) (p : Nat) (sh : Statics) : Prop :=
  ∀ i, i ≤ line.length → sh.buf i = if i < p ∧ line.getD i 0 = chr ' ' then 0 else line.getD i 0

/-- The result of `splitLoop` from `p` on, with `argc` words found before. -/
def SplitEnds (line : List Byte) (p argc : Nat) (sh : Statics) (r : Except Stuck Statics) : Prop :=
  if argc + (startsFrom line p).length ≤ 31 then
    ∃ sh', r = .ok sh' ∧ Scanned line line.length sh' ∧ (∀ k, k < argc → sh'.argv k = sh.argv k) ∧
      ∀ k, k ≤ (startsFrom line p).length → sh'.argv (argc + k) = (startsFrom line p)[k]?
  else r = .error .argv

section Scan

variable {line : List Byte} {sh : Statics} {p : Nat}

theorem Scanned.at (h : Scanned line p sh) (hp : p ≤ line.length) : sh.buf p = line.getD p 0 := by
  rw [h p hp, if_neg (fun hlt => lt_irrefl p hlt.1)]

/-- The characters of a word are passed over. -/
theorem Scanned.pass {q : Nat} (h : Scanned line p sh) (hpq : p ≤ q)
    (hword : ∀ i, p ≤ i → i < q → line.getD i 0 ≠ chr ' ') : Scanned line q sh := by
  intro i hi
  rw [h i hi]
  by_cases hsp : line.getD i 0 = chr ' '
  · by_cases hip : i < p
    · rw [if_pos ⟨hip, hsp⟩, if_pos ⟨by omega, hsp⟩]
    · have hiq : ¬ i < q := fun hiq => hword i (by omega) hiq hsp
      rw [if_neg (fun hlt => hip hlt.1), if_neg (fun hlt => hiq hlt.1)]
  · rw [if_neg (fun hlt => hsp hlt.2), if_neg (fun hlt => hsp hlt.2)]

/-- A space is blanked. -/
theorem Scanned.blank (h : Scanned line p sh) (hsp : line.getD p 0 = chr ' ') :
    Scanned line (p + 1) { sh with buf := Function.update sh.buf p 0 } := by
  intro i hi
  by_cases heq : i = p
  · subst heq
    rw [if_pos ⟨Nat.lt_succ_self i, hsp⟩]
    exact Function.update_self ..
  · have hupd : Function.update sh.buf p 0 i = sh.buf i := Function.update_of_ne heq ..
    show Function.update sh.buf p 0 i = _
    rw [hupd, h i hi]
    have hiff : i < p + 1 ↔ i < p := by omega
    simp only [hiff]

variable (hlen : line.length ≤ 199)
include hlen

/-- `skipSpaces` comes to the next character that is no space. -/
theorem skipSpaces_spec {fuel : Nat} (h : Scanned line p sh) (hp : p ≤ line.length)
    (hfuel : line.length < p + fuel) :
    ∃ q sh', skipSpaces fuel sh p = .ok (sh', q) ∧ p ≤ q ∧ q ≤ line.length ∧ Scanned line q sh' ∧
      sh'.argv = sh.argv ∧ line.getD q 0 ≠ chr ' ' ∧ ∀ i, p ≤ i → i < q →
        line.getD i 0 = chr ' ' := by
  induction fuel generalizing sh p with
  | zero => omega
  | succ fuel ih =>
    rw [skipSpaces, Statics.load_eq (by omega), ok_bind, h.at hp]
    by_cases hsp : line.getD p 0 = chr ' '
    · -- the line does not end with the space it is at
      have hlt : p < line.length := by
        by_contra hge
        rw [List.getD_eq_default _ _ (not_lt.1 hge)] at hsp
        exact absurd hsp (by decide)
      rw [if_pos hsp, Statics.store_eq (by omega), ok_bind]
      obtain ⟨q, sh', hrun, hpq, hq, hscan, hargv, hne, hspaces⟩ := ih (h.blank hsp) hlt (by omega)
      refine ⟨q, sh', hrun, by omega, hq, hscan, hargv, hne, fun i hi hiq => ?_⟩
      by_cases heq : i = p
      · rwa [heq]
      · exact hspaces i (by omega) hiq
    · rw [if_neg hsp]
      exact ⟨p, sh, rfl, le_rfl, hp, h, rfl, hsp, fun i hi hiq => by omega⟩

variable (hnul : 0 ∉ line)
include hnul

omit hlen in
theorem getD_ne_zero {i : Nat} (hi : i < line.length) : line.getD i 0 ≠ 0 := by
  rw [List.getD_eq_getElem _ _ hi]
  intro hzero
  exact hnul (hzero ▸ List.getElem_mem hi)

/-- `skipWord` comes to the end of the word. -/
theorem skipWord_spec {fuel : Nat} (h : Scanned line p sh) (hp : p ≤ line.length)
    (hfuel : line.length < p + fuel) :
    ∃ q, skipWord sh fuel p = .ok q ∧ p ≤ q ∧ q ≤ line.length ∧ Scanned line q sh ∧
      (q = line.length ∨ line.getD q 0 = chr ' ') ∧ ∀ i, p ≤ i → i < q →
        line.getD i 0 ≠ chr ' ' := by
  induction fuel generalizing p with
  | zero => omega
  | succ fuel ih =>
    rw [skipWord, Statics.load_eq (by omega), ok_bind, h.at hp]
    by_cases hin : p < line.length ∧ line.getD p 0 ≠ chr ' '
    · rw [if_pos ⟨getD_ne_zero hnul hin.1, hin.2⟩]
      have hword (i : Nat) (hi : p ≤ i) (hi' : i < p + 1) : line.getD i 0 ≠ chr ' ' := by
        rw [show i = p by omega]
        exact hin.2
      obtain ⟨q, hrun, hpq, hq, hscan, hstop, hrest⟩ :=
        ih (h.pass (Nat.le_succ p) hword) hin.1 (by omega)
      refine ⟨q, hrun, by omega, hq, hscan, hstop, fun i hi hiq => ?_⟩
      by_cases heq : i = p
      · rw [heq]
        exact hin.2
      · exact hrest i (by omega) hiq
    · have hstop : p = line.length ∨ line.getD p 0 = chr ' ' := by
        by_cases hlt : p < line.length
        · exact .inr (not_not.1 fun hne => hin ⟨hlt, hne⟩)
        · exact .inl (by omega)
      have hout : ¬ (line.getD p 0 ≠ 0 ∧ line.getD p 0 ≠ chr ' ') := by
        rintro ⟨hne, hsp⟩
        rcases hstop with heq | heq
        · exact hne (List.getD_eq_default _ _ heq.ge)
        · exact hsp heq
      rw [if_neg hout]
      exact ⟨p, rfl, le_rfl, hp, h, hstop, fun i hi hiq => by omega⟩

omit hlen hnul in
/-- One word more at the front. -/
theorem SplitEnds.cons {argc q r : Nat} {sh' : Statics} {res : Except Stuck Statics}
    (hargv : sh'.argv = sh.argv)
    (hstarts : startsFrom line p = q :: startsFrom line r)
    (h : SplitEnds line r (argc + 1) { sh' with argv := Function.update sh'.argv argc (some q) }
      res) :
    SplitEnds line p argc sh res := by
  rw [SplitEnds] at h ⊢
  rw [hstarts, List.length_cons, show argc + ((startsFrom line r).length + 1) = argc + 1 +
    (startsFrom line r).length by omega]
  split at h
  · rename_i hfew
    rw [if_pos hfew]
    obtain ⟨out, hres, hscan, hbefore, hafter⟩ := h
    refine ⟨out, hres, hscan, fun k hk => ?_, fun k hk => ?_⟩
    · rw [hbefore k (by omega), ← hargv]
      exact Function.update_of_ne (by omega) ..
    · cases k with
      | zero =>
        rw [Nat.add_zero, hbefore argc (Nat.lt_succ_self argc)]
        exact Function.update_self ..
      | succ k =>
        rw [List.getElem?_cons_succ, ← hafter k (by omega), show argc + (k + 1) = argc + 1 +
          k by omega]
  · rename_i hmany
    rw [if_neg hmany, h]

/-- **`splitLoop` finds the words from `p` on**, if `argv` has room for them. -/
theorem splitLoop_spec {fuel argc : Nat} (h : Scanned line p sh) (hp : p ≤ line.length)
    (hleft : p = 0 ∨ p = line.length ∨ line.getD (p - 1) 0 = chr ' ' ∨ line.getD p 0 = chr ' ')
    (hfuel : line.length < p + fuel) : SplitEnds line p argc sh (splitLoop fuel sh argc p) := by
  induction fuel generalizing sh argc p with
  | zero => omega
  | succ fuel ih =>
    obtain ⟨q, sh', hrun, hpq, hq, hscan, hargv, hne, hspaces⟩ :=
      skipSpaces_spec hlen h hp (show line.length < p + 200 by omega)
    have hskip : startsFrom line p = startsFrom line q :=
      startsFrom_skip hpq hq fun i hi hiq hstart => hstart.1 (hspaces i hi hiq)
    rw [splitLoop, hrun, ok_bind]
    simp only [Statics.load_eq (show q < 200 by omega), ok_bind, hscan.at hq]
    by_cases hend : q = line.length
    · -- the end of the string
      have hstarts : startsFrom line p = [] := by rw [hskip, hend, startsFrom_length]
      have hzero : line.getD q 0 = 0 := List.getD_eq_default _ _ hend.ge
      rw [if_neg (not_not.2 hzero), SplitEnds, hstarts, List.length_nil, Nat.add_zero]
      by_cases hroom : argc ≤ 31
      · rw [if_pos hroom, Statics.setArgv_eq (by omega)]
        refine ⟨_, rfl, hend ▸ hscan, fun k hk => ?_, fun k hk => ?_⟩
        · rw [← hargv]
          exact Function.update_of_ne hk.ne ..
        · rw [Nat.le_zero.1 hk]
          exact Function.update_self ..
      · rw [if_neg hroom, Statics.setArgv_error (by omega)]
    · have hlt : q < line.length := by omega
      have hstart : IsStart line q := by
        refine ⟨hne, ?_⟩
        by_cases heq : p = q
        · subst heq
          rcases hleft with hzero | hlast | hsp | hsp
          · exact .inl hzero
          · exact absurd hlast hend
          · exact .inr hsp
          · exact absurd hsp hne
        · exact .inr (hspaces (q - 1) (by omega) (by omega))
      rw [if_pos (getD_ne_zero hnul hlt)]
      by_cases hroom : argc < 32
      · have hscan' : Scanned line q { sh' with argv := Function.update sh'.argv argc (some q) } :=
          hscan
        obtain ⟨r, hword, hqr, hr, hscan'', hstop, hin⟩ := skipWord_spec hlen hnul hscan' hq
          (show line.length < q + 200 by omega)
        have hne' : q ≠ r := by
          rintro rfl
          rcases hstop with heq | hsp
          · exact hend heq
          · exact hne hsp
        have hrest : startsFrom line (q + 1) = startsFrom line r := by
          refine startsFrom_skip (by omega) hr fun i hi hir hstart' => ?_
          rcases hstart'.2 with hzero | hsp
          · omega
          · exact hin (i - 1) (by omega) (by omega) hsp
        rw [Statics.setArgv_eq hroom, ok_bind, hword, ok_bind]
        refine SplitEnds.cons hargv ?_ (ih hscan'' hr ?_ (by omega))
        · rw [hskip, startsFrom_cons hlt hstart, hrest]
        · exact hstop.elim (fun heq => .inr (.inl heq)) fun hsp => .inr (.inr (.inr hsp))
      · rw [Statics.setArgv_error (by omega), error_bind, SplitEnds, hskip,
          startsFrom_cons hlt hstart, List.length_cons,
          if_neg (by omega)]

end Scan

/-! ## Reading the line -/

/-- The line is at the front of `buf`, and if it has no `NUL`, it is the string there. -/
structure Front (line : List Byte) (sh : Statics) : Prop where
  chars : ∀ i, i < line.length → sh.buf i = line.getD i 0
  after : sh.buf line.length = 0 ∨ IsEnd (sh.buf line.length)
  string : 0 ∉ line → sh.buf line.length = 0

/-- The string in `buf`, with the line end if there is one. -/
def Reads (line : List Byte) (sh : Statics) : Prop :=
  ∃ e, e ≤ 199 ∧ (∀ i, i < line.length → sh.buf i = line.getD i 0) ∧ sh.buf e = 0 ∧
    (e = line.length ∨ e = line.length + 1 ∧ IsEnd (sh.buf line.length))

section Reading

variable {line : List Byte} {sh : Statics}

theorem lineOf_length (input : List Byte) : (lineOf input).length ≤ 199 := by
  refine (List.takeWhile_prefix _).length_le.trans ?_
  rw [List.length_take]
  exact Nat.min_le_left ..

/-- The turns of `getsLoop`, with `n` characters of room. -/
theorem getsLoop_spec (input : List Byte) (n i : Nat) (hroom : i + n = 199) (sh : Statics) :
    ∃ sh' e, getsLoop 200 sh i input = .ok (sh', e) ∧ e ≤ 199 ∧
      (∀ k, k < i → sh'.buf k = sh.buf k) ∧
      (∀ k, k < ((input.take n).takeWhile fun c => ¬ IsEnd c).length →
        sh'.buf (i + k) = ((input.take n).takeWhile fun c => ¬ IsEnd c).getD k 0) ∧
      (e = i + ((input.take n).takeWhile fun c => ¬ IsEnd c).length ∨
        e = i + ((input.take n).takeWhile fun c => ¬ IsEnd c).length + 1 ∧
          IsEnd (sh'.buf (i + ((input.take n).takeWhile fun c => ¬ IsEnd c).length))) := by
  induction input generalizing n i sh with
  | nil =>
    refine ⟨sh, i, rfl, by omega, fun _ _ => rfl, fun k hk => ?_, .inl ?_⟩
    · simp at hk
    · simp
  | cons c input ih =>
    cases n with
    | zero =>
      refine ⟨sh, i, ?_, by omega, fun _ _ => rfl, fun k hk => ?_, .inl ?_⟩
      · rw [getsLoop, if_neg (by omega)]
      · simp at hk
      · simp
    | succ n =>
      rw [getsLoop, if_pos (by omega), Statics.store_eq (by omega), ok_bind, List.take_succ_cons]
      by_cases hend : IsEnd c
      · rw [if_pos hend, List.takeWhile_cons_of_neg (by simpa using hend)]
        refine ⟨_, i + 1, rfl, by omega, fun k hk => Function.update_of_ne hk.ne ..,
          fun k hk => ?_, .inr ⟨rfl, ?_⟩⟩
        · simp at hk
        · simpa using hend
      · rw [if_neg hend, List.takeWhile_cons_of_pos (by simpa using hend), List.length_cons]
        obtain ⟨sh', e, hrun, he, hold, hnew, hstop⟩ :=
          ih n (i + 1) (by omega) { sh with buf := Function.update sh.buf i c }
        refine ⟨sh', e, hrun, he, fun k hk => ?_, fun k hk => ?_, ?_⟩
        · rw [hold k (by omega)]
          exact Function.update_of_ne hk.ne ..
        · cases k with
          | zero =>
            rw [Nat.add_zero, hold i (Nat.lt_succ_self i)]
            exact Function.update_self ..
          | succ k =>
            rw [List.getD_cons_succ, ← hnew k (by omega), show i + (k + 1) = i + 1 + k by omega]
        · rwa [show i + (((input.take n).takeWhile fun c => ¬ IsEnd c).length + 1) =
            i + 1 + ((input.take n).takeWhile fun c => ¬ IsEnd c).length by omega]

/-- `gets` reads the line. -/
theorem gets_spec (sh : Statics) (input : List Byte) :
    ∃ sh', gets sh 200 input = .ok sh' ∧ Reads (lineOf input) sh' := by
  obtain ⟨sh', e, hrun, he, -, hline, hstop⟩ := getsLoop_spec input 199 0 rfl sh
  simp only [Nat.zero_add] at hline hstop
  rw [gets, hrun]
  simp only [ok_bind, Statics.store_eq (show e < 200 by omega)]
  refine ⟨_, rfl, e, he, fun i hi => ?_, Function.update_self .., ?_⟩
  · have hne : i ≠ e := by
      rcases hstop with heq | ⟨heq, -⟩
      · rw [heq]
        exact hi.ne
      · rw [heq]
        exact (hi.trans (Nat.lt_succ_self _)).ne
    exact (Function.update_of_ne hne ..).trans (hline i hi)
  · refine hstop.imp id fun hst => ⟨hst.1, ?_⟩
    have hne : (lineOf input).length ≠ e := by
      rw [hst.1]
      exact (Nat.lt_succ_self _).ne
    show IsEnd (Function.update sh'.buf e 0 (lineOf input).length)
    rw [Function.update_of_ne hne]
    exact hst.2

/-- `strlen` finds the first `NUL`. -/
theorem strlen_spec {e fuel n : Nat} (he : e ≤ 199) (hzero : sh.buf e = 0) (hn : n ≤ e)
    (hfuel : e < n + fuel) :
    ∃ len, strlen sh fuel n = .ok len ∧ n ≤ len ∧ len ≤ e ∧ sh.buf len = 0 ∧ ∀ i, n ≤ i → i < len →
      sh.buf i ≠ 0 := by
  induction fuel generalizing n with
  | zero => omega
  | succ fuel ih =>
    rw [strlen, Statics.load_eq (by omega), ok_bind]
    by_cases hnul : sh.buf n = 0
    · rw [if_neg (not_not.2 hnul)]
      exact ⟨n, rfl, le_rfl, hn, hnul, fun i hi hlt => by omega⟩
    · rw [if_pos hnul]
      have hne : n ≠ e := fun heq => hnul (heq ▸ hzero)
      obtain ⟨len, hrun, hlen, hle, hstop, hbefore⟩ := ih (by omega : n + 1 ≤ e) (by omega)
      refine ⟨len, hrun, by omega, hle, hstop, fun i hi hlt => ?_⟩
      by_cases heq : i = n
      · rwa [heq]
      · exact hbefore i (by omega) hlt

theorem lineOf_noEnd (input : List Byte) : ∀ c ∈ lineOf input, ¬ IsEnd c := by
  intro c hc
  simpa using List.mem_takeWhile_imp hc

/-- What is left of the line after its end is removed. -/
theorem chop_spec (hend : ∀ c ∈ line, ¬ IsEnd c) (h : Reads line sh) :
    ∃ len sh', strlen sh 200 0 = .ok len ∧ chop sh len = .ok sh' ∧ Front line sh' := by
  obtain ⟨e, he, hchars, hzero, hstop⟩ := h
  obtain ⟨len, hrun, -, hle, hnul, hbefore⟩ :=
    strlen_spec he hzero (Nat.zero_le e) (show e < 0 + 200 by omega)
  refine ⟨len, ?_⟩
  by_cases hlast : len = line.length + 1
  · have hend' : IsEnd (sh.buf line.length) := by
      rcases hstop with heq | ⟨-, hisEnd⟩
      · omega
      · exact hisEnd
    refine ⟨{ sh with buf := Function.update sh.buf line.length 0 }, hrun, ?_, ?_⟩
    · rw [chop, if_pos (by omega), Statics.load_eq (by omega), ok_bind, hlast, Nat.add_sub_cancel,
        if_pos hend',
        Statics.store_eq (by omega)]
    · have hblank : Function.update sh.buf line.length 0 line.length = 0 := Function.update_self ..
      exact ⟨fun i hi => (Function.update_of_ne hi.ne ..).trans (hchars i hi), .inl hblank,
        fun _ => hblank⟩
  · have hshort : len ≤ line.length := by
      rcases hstop with heq | ⟨heq, -⟩ <;> omega
    refine ⟨sh, hrun, ?_, hchars, ?_, fun hno => ?_⟩
    · rw [chop]
      by_cases hpos : len > 0
      · have hchar : ¬ IsEnd (sh.buf (len - 1)) := by
          rw [hchars _ (by omega), List.getD_eq_getElem _ _ (by omega)]
          exact hend _ (List.getElem_mem _)
        rw [if_pos hpos, Statics.load_eq (by omega), ok_bind, if_neg hchar]
        rfl
      · rw [if_neg hpos]
        rfl
    · rcases hstop with heq | ⟨-, hisEnd⟩
      · exact .inl (heq ▸ hzero)
      · exact .inr hisEnd
    · by_cases hlt : len < line.length
      · exact absurd (hchars len hlt ▸ hnul) (getD_ne_zero hno hlt)
      · rwa [show line.length = len by omega]

/-- Characters that are not `NUL` are compared to the last. -/
theorem strncmp_spec {r : List Byte} {n i : Nat} (hr : ∀ j, j ≤ n → r.getD (i + j) 0 ≠ 0)
    (hi : i + n < 200) :
    ∃ d, strncmp sh r n i = .ok d ∧ (d = 0 ↔ ∀ j, j ≤ n → sh.buf (i + j) = r.getD (i + j) 0) := by
  have hsub (a b : Byte) : (a.toNat : Int) - b.toNat = 0 ↔ a = b := by
    rw [sub_eq_zero, Nat.cast_inj, ← BitVec.toNat_inj]
  induction n generalizing i with
  | zero =>
    rw [strncmp, Statics.load_eq (by omega), ok_bind]
    refine ⟨_, rfl, (hsub _ _).trans ⟨fun heq j hj => ?_, fun h => h 0 le_rfl⟩⟩
    rwa [Nat.le_zero.1 hj]
  | succ n ih =>
    rw [strncmp, Statics.load_eq (by omega), ok_bind]
    by_cases heq : sh.buf i = r.getD i 0
    · rw [if_pos ⟨heq ▸ hr 0 (Nat.zero_le _), hr 0 (Nat.zero_le _), heq⟩]
      obtain ⟨d, hrun, hd⟩ := ih (i := i + 1) (fun j hj => by
        rw [show i + 1 + j = i + (j + 1) by omega]
        exact hr (j + 1) (by omega)) (by omega)
      refine ⟨d, hrun, hd.trans ⟨fun h j hj => ?_, fun h j hj => ?_⟩⟩
      · cases j with
        | zero => exact heq
        | succ j =>
          rw [show i + (j + 1) = i + 1 + j by omega]
          exact h j (by omega)
      · rw [show i + 1 + j = i + (j + 1) by omega]
        exact h (j + 1) (by omega)
    · rw [if_neg (fun h => heq h.2.2)]
      refine ⟨_, rfl, (hsub _ _).trans ⟨fun h => absurd h heq, fun h => h 0 (Nat.zero_le _)⟩⟩

theorem quit_chars (j : Nat) (hj : j ≤ 3) : quit.getD j 0 ≠ 0 ∧ ¬ IsEnd (quit.getD j 0) := by
  have hall : ∀ j : Fin 4, quit.getD j 0 ≠ 0 ∧ ¬ IsEnd (quit.getD j 0) := by decide
  exact hall ⟨j, by omega⟩

/-- A line is told to be `quit` by its first four characters. -/
theorem quit_spec (h : Front line sh) :
    ∃ d, strncmp sh quit 3 0 = .ok d ∧ (d = 0 ↔ line.take 4 = quit) := by
  obtain ⟨d, hrun, hd⟩ :=
    @strncmp_spec sh quit 3 0 (fun j hj => by simpa using (quit_chars j hj).1) (by omega)
  simp only [Nat.zero_add] at hd
  have hquit : quit.length = 4 := rfl
  refine ⟨d, hrun, hd.trans ⟨fun hsame => ?_, fun htake j hj => ?_⟩⟩
  · -- the character after a shorter line is none of `quit`
    have hlong : 4 ≤ line.length := by
      by_contra hshort
      have hchar := quit_chars line.length (by omega)
      rw [← hsame line.length (by omega)] at hchar
      exact h.after.elim hchar.1 hchar.2
    refine List.ext_getElem (by simp [hquit, hlong]) fun j hj hj' => ?_
    have hchar := hsame j (by omega)
    rw [h.chars j (by omega), List.getD_eq_getElem _ _ (by omega), List.getD_eq_getElem _ _ hj']
      at hchar
    simpa using hchar
  · have hlen : 4 ≤ line.length := by
      have := congrArg List.length htake
      simp only [List.length_take, hquit] at this
      omega
    rw [h.chars j (by omega), ← htake, List.getD_eq_getElem _ _ (by omega),
      List.getD_eq_getElem _ _ (by simp; omega),
      List.getElem_take]

end Reading

/-! ## A turn -/

section Turn

variable (sh : Statics) (input : List Byte)

/-- What the shell does with a line. -/
theorem turn_spec : ∃ sh', Front (lineOf input) sh' ∧ turn sh input =
    if (lineOf input).take 4 = quit then .ok .exits else .forks <$> splitLoop 200 sh' 0 0 := by
  obtain ⟨got, hgets, hreads⟩ := gets_spec sh input
  obtain ⟨len, sh', hlen, hchop, hfront⟩ := chop_spec (lineOf_noEnd input) hreads
  obtain ⟨d, hcmp, hd⟩ := quit_spec hfront
  refine ⟨sh', hfront, ?_⟩
  rw [turn, hgets, ok_bind, hlen, ok_bind, hchop, ok_bind, hcmp, ok_bind]
  simp only [hd]
  split
  · rfl
  · cases splitLoop 200 sh' 0 0 <;> rfl

variable {sh input}

theorem Front.scanned {line : List Byte} (h : Front line sh) (hnul : 0 ∉ line) :
    Scanned line 0 sh := by
  intro i hi
  rw [if_neg (fun hlt => Nat.not_lt_zero i hlt.1)]
  by_cases hlt : i < line.length
  · exact h.chars i hlt
  · rw [List.getD_eq_default _ _ (not_lt.1 hlt), show i = line.length by omega]
    exact h.string hnul

theorem Front.splitEnds {line : List Byte} (h : Front line sh) (hlen : line.length ≤ 199)
    (hnul : 0 ∉ line) :
    SplitEnds line 0 0 sh (splitLoop 200 sh 0 0) :=
  splitLoop_spec hlen hnul (h.scanned hnul) (Nat.zero_le _) (.inl rfl) (by omega)

/-- The blanked line has the words as its strings. -/
theorem Scanned.splits {line : List Byte} (hnul : 0 ∉ line) (h : Scanned line line.length sh)
    (hargv : ∀ k, k ≤ (wordStarts line).length → sh.argv k = (wordStarts line)[k]?) :
    Splits line (wordStarts line) sh := by
  refine ⟨wordStarts_sorted, fun p => mem_wordStarts, hargv, fun p w hrun j hj => ?_,
    fun p w hrun => ?_⟩
  · have hinside := hrun.inside
    have hchar : sh.buf (p + j) = line.getD (p + j) 0 := by
      rw [h (p + j) (by omega), if_neg (fun hsp => hrun.word j hj hsp.2)]
    refine ⟨hchar, ?_⟩
    rw [hchar]
    exact getD_ne_zero hnul (by omega)
  · rw [h (p + w) hrun.inside]
    by_cases hend : p + w = line.length
    · rw [if_neg (by omega), List.getD_eq_default _ _ hend.ge]
    · have hinside := hrun.inside
      rw [if_pos ⟨by omega, hrun.right.resolve_left hend⟩]

/-- A `NUL` is in no word that is a string. -/
theorem Splits.noNul {line : List Byte} {starts : List Nat} (h : Splits line starts sh) :
    0 ∉ line := by
  intro hmem
  obtain ⟨k, hk, hzero⟩ := List.getElem_of_mem hmem
  have hchar : line.getD k 0 = 0 := by rw [List.getD_eq_getElem _ _ hk, hzero]
  obtain ⟨p, w, hrun, hp, hpw⟩ := exists_run hk (by rw [hchar]; decide)
  obtain ⟨hsame, hne⟩ := h.word p w hrun (k - p) (by omega)
  rw [show p + (k - p) = k by omega] at hsame hne
  exact hne (hsame.trans hchar)

/-- **A line with too many words is written past the end of `argv`.** -/
theorem turn_overflow (hquit : (lineOf input).take 4 ≠ quit) (hnul : 0 ∉ lineOf input)
    (hmany : 31 < (wordStarts (lineOf input)).length) : turn sh input = .error .argv := by
  obtain ⟨sh', hfront, hturn⟩ := turn_spec sh input
  have hlen := lineOf_length input
  have hsplit := hfront.splitEnds hlen hnul
  rw [SplitEnds, if_neg (by rw [Nat.zero_add]; exact not_le.2 hmany)] at hsplit
  rw [hturn, if_neg hquit, hsplit]
  rfl

/-- **The shell splits a line exactly if it is a string of at most 31 words**, or tells it to
exit. -/
theorem splits_iff (sh : Statics) (input : List Byte) :
    (∃ o, turn sh input = .ok o ∧ Right (lineOf input) o) ↔
    (lineOf input).take 4 = quit ∨ 0 ∉ lineOf input ∧ (wordStarts (lineOf input)).length ≤ 31 := by
  obtain ⟨sh', hfront, hturn⟩ := turn_spec sh input
  have hlen := lineOf_length input
  constructor
  · rintro ⟨o, ho, hright⟩
    by_cases hquit : (lineOf input).take 4 = quit
    · exact .inl hquit
    · cases hright with
      | exits hexits => exact .inl hexits
      | forks hsplits =>
        refine .inr ⟨hsplits.noNul, ?_⟩
        by_contra hmany
        rw [turn_overflow hquit hsplits.noNul (not_le.1 hmany)] at ho
        cases ho
  · intro hcond
    by_cases hquit : (lineOf input).take 4 = quit
    · exact ⟨.exits, by rw [hturn, if_pos hquit], .exits hquit⟩
    · obtain ⟨hnul, hfew⟩ := hcond.resolve_left hquit
      have hsplit := hfront.splitEnds hlen hnul
      rw [SplitEnds, if_pos (by rw [Nat.zero_add]; exact hfew)] at hsplit
      obtain ⟨out, hout, hscan, -, hargv⟩ := hsplit
      simp only [Nat.zero_add] at hargv
      refine ⟨.forks out, ?_, .forks (hscan.splits hnul hargv)⟩
      rw [hturn, if_neg hquit, hout]
      rfl

/-- A line of 32 words. -/
def manyWords : List Byte := (List.replicate 32 [chr 'a', chr ' ']).flatten ++ [chr '\n']

theorem manyWords_overflow (sh : Statics) : turn sh manyWords = .error .argv :=
  turn_overflow (by decide) (by decide) (by decide)

theorem manyWords_wrong :
    ¬ ∃ o, turn ⟨fun _ => 0, fun _ => none⟩ manyWords = .ok o ∧ Right (lineOf manyWords) o := by
  rintro ⟨o, ho, -⟩
  rw [manyWords_overflow] at ho
  cases ho

end Turn

end SignalOS.Shell
