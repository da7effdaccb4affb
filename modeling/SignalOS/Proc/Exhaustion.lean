import SignalOS.Proc.ArgArray
import SignalOS.Vm.Exhaustion

/-!
# The loader that runs out of pages

* `mapImage_commutesIf` — the part of `buildImage` that takes pages does not notice more of
  them if it succeeds.
* `pushStrings_commutes`, `pushArgv_commutes` — nor does the part after it, however it ends.
-/

namespace SignalOS

open LittleEndian Partial

variable {l : List Uint64}

theorem bytes_commutes (app : UserApp) (off n : Uint64) :
    Commutes (Vm.more l) (app.bytes off n) := by
  intro vm
  rw [UserApp.bytes]
  cases (List.range n.toNat).mapM fun i => app.file (off + BitVec.ofNat 64 i) <;> rfl

theorem loadFile_commutes (app : UserApp) (mm : Mm) (phdr : Phdr) (pages : List Uint64)
    (off remains : Uint64) :
    Commutes (Vm.more l) (loadFile app mm phdr pages off remains) := by
  induction pages generalizing off remains with
  | nil => exact .pure _
  | cons va rest ih =>
    refine .bind (pageOf_commutes _ _) fun pa => .bind (bytes_commutes _ _ _) fun src =>
      .bind (storeBytes_commutes _ _) fun _ => .ite ?_ (ih _ _)
    exact .bind (setBytes_commutes _ _ _) fun _ => ih _ _

theorem clearBss_commutes (mm : Mm) (bssEnd : Uint64) (fuel : Nat) (va : Uint64) :
    Commutes (Vm.more l) (clearBss mm bssEnd fuel va) := by
  induction fuel generalizing va with
  | zero => exact .pure _
  | succ fuel ih =>
    exact .ite (.bind (pageOf_commutes _ _) fun pa => .bind (setBytes_commutes _ _ _) fun _ =>
      ih _) (.pure _)

/-- The value is an address space, not an error. -/
def Build.IsOk {α : Type} : Build α → Prop
  | .ok _ => True
  | .bad _ _ => False

theorem loadPhdr_commutesIf (app : UserApp) (mm : Mm) (phdr : Phdr) :
    CommutesIf (Vm.more l) Build.IsOk (loadPhdr app mm phdr) := by
  refine .bind_of_commutes (kassert_commutes _) fun _ =>
    .bind_of_commutes mmCreateVma_commutes fun obj => ?_
  refine .bind (mmMappages_commutesIf _ _) (fun r hr => ?_) fun r hr => ?_
  · refine .ite (fun hneg => absurd hr (not_le.2 hneg)) fun _ => .of_commutes ?_
    refine .bind (loadFile_commutes _ _ _ _ _ _) fun remains => .ite ?_ ?_
    · exact .bind (clearBss_commutes _ _ _ _) fun _ => .bind (kassert_commutes _) fun _ => .pure _
    · exact .bind (kassert_commutes _) fun _ => .pure _
  · show Returns _ (if r.1 < 0 then _ else _)
    rw [if_pos (not_le.1 hr)]
    exact .pure not_false

theorem loadPhdrs_commutesIf (app : UserApp) (phdrs : List Phdr) (mm : Mm) (maxVaEnd : Uint64) :
    CommutesIf (Vm.more l) Build.IsOk (loadPhdrs app phdrs mm maxVaEnd) := by
  induction phdrs generalizing mm maxVaEnd with
  | nil => exact .of_commutes (.pure _)
  | cons phdr rest ih =>
    refine .ite (fun _ => ih _ _) fun _ => .bind (loadPhdr_commutesIf _ _ _) (fun r hr => ?_)
      fun r hr => ?_
    · cases r with
      | ok mm => exact ih _ _
      | bad ret mm => exact absurd hr not_false
    · cases r with
      | ok mm => exact absurd trivial hr
      | bad ret mm => exact .pure not_false

theorem mapImage_commutesIf (app : UserApp) (newMm : Mm) :
    CommutesIf (Vm.more l) Build.IsOk (mapImage app newMm) := by
  refine .bind (loadPhdrs_commutesIf _ _ _ _) (fun r hr => ?_) fun r hr => ?_
  · cases r with
    | bad ret mm => exact absurd hr not_false
    | ok loaded =>
      refine .bind_of_commutes mmCreateVma_commutes fun b => .bind (mmMappages_commutesIf _ _)
        (fun r hr => ?_) fun r hr => ?_
      · refine .ite (fun hneg => absurd hr (not_le.2 hneg)) fun _ =>
          .bind_of_commutes mmCreateVma_commutes fun s => ?_
        refine .bind (mmMappages_commutesIf _ _) (fun r hr => ?_) fun r hr => ?_
        · refine .ite (fun hneg => absurd hr (not_le.2 hneg)) fun _ =>
            .of_commutes (.bind (.forM (fun va => ?_) _) fun _ => .pure _)
          exact .bind (pageOf_commutes _ _) fun _ => setBytes_commutes _ _ _
        · show Returns _ (if r.1 < 0 then _ else _)
          rw [if_pos (not_le.1 hr)]
          exact .pure not_false
      · show Returns _ (if r.1 < 0 then _ else _)
        rw [if_pos (not_le.1 hr)]
        exact .pure not_false
  · cases r with
    | ok mm => exact absurd trivial hr
    | bad ret mm => exact .pure not_false

theorem userKva_commutes (mm : Mm) (va : Uint64) : Commutes (Vm.more l) (userKva mm va) := by
  refine .get_bind (fun vm => ?_) fun _ => .bind (kassert_commutes _) fun _ => .pure _
  simp only [useraddr, walkaddr_more]

theorem pushStrings_commutes (mm : Mm) (args : List (List Byte)) (sp : Uint64) :
    Commutes (Vm.more l) (pushStrings mm args sp) := by
  induction args generalizing sp with
  | nil => exact .pure _
  | cons arg rest ih =>
    exact .bind (userKva_commutes _ _) fun kva => .bind (storeBytes_commutes _ _) fun _ =>
      .bind (ih _) fun _ => .pure _

theorem pushArgv_commutes (mm : Mm) (uargv : List Uint64) (sp : Uint64) :
    Commutes (Vm.more l) (pushArgv mm uargv sp) := by
  induction uargv generalizing sp with
  | nil => exact .pure _
  | cons ptr rest ih =>
    exact .bind (userKva_commutes _ _) fun kva => .bind (storeBytes_commutes _ _) fun _ => ih _

end SignalOS
