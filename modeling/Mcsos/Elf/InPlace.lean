import Mcsos.Elf.Format

/-!
# The plan in memory

`m11_elf64_plan_load` works on the structure of the caller: whatever that holds before is set to
zero, the entry point and the slots are filled while the image is checked, and an error in the loop
sets everything to zero again. Here the loader is written with that structure as a variable, every
exit as the source has it. It returns what the loader of `Mcsos.Elf.Loader` returns and leaves its
plan in the first slots (`result_m11Elf64PlanLoad`).

The contract of the loader says that an error leaves a plan of zeros. The one exit without
`m11_zero_plan` is the last one, for an image without a segment to load: there the entry point has
been assigned already.

Each segment is checked by itself. No segment may be written and executed, but two segments may
overlap, and nothing keeps one of them from being writable and the other from being executable.
-/

namespace Mcsos.Elf.InPlace

open Checked Filling

/-! ## The loader -/

/-- A slot of zeros. -/
def zeroSegment : SegmentPlan := ⟨0, 0, 0, 0, 0, 0⟩

structure Plan where
  entry : ℕ
  segmentCount : ℕ
  segments : Fin maxLoadSegments → SegmentPlan

def m11ZeroPlan (plan : Plan) : Plan :=
  { plan with entry := 0, segmentCount := 0, segments := fun _ ↦ zeroSegment }

/-- The assignments to the next slot and to `segment_count`. -/
def Plan.fill (plan : Plan) (seg : SegmentPlan) (h : plan.segmentCount < maxLoadSegments) : Plan :=
  { plan with
    segmentCount := plan.segmentCount + 1
    segments := Function.update plan.segments ⟨plan.segmentCount, h⟩ seg }

/-- The loop over the program headers, with `n` of them left and `ph` the address of the next. -/
def fillSegments (imageSize : UInt64) (region : UserRegion) : ℕ → ℕ → Filling Plan Err Unit
  | 0, _ => pure ()
  | n + 1, ph => do
    let type ← check (pType.read ph)
    if type ≠ ptLoad then fillSegments imageSize region n (ph + phdrSize)
    else
      let plan ← get
      if h : plan.segmentCount < maxLoadSegments then
        onError m11ZeroPlan (check (m11ValidateLoadSegment ph imageSize region))
        let seg ← check (readSegment ph)
        set (plan.fill seg h)
        fillSegments imageSize region n (ph + phdrSize)
      else
        modify m11ZeroPlan
        throw .errSegcount

/-- The check after the loop. -/
def checkCount : Filling Plan Err Unit := do
  let plan ← get
  if plan.segmentCount = 0 then throw .errSegcount

/-- `m11_elf64_plan_load`; the flag `image` says that the image is not a null pointer. -/
def m11Elf64PlanLoad (image : Bool) (imageSize : UInt64) (region : UserRegion) :
    Filling Plan Err Unit := do
  if image = false then throw .errNull
  else
    modify m11ZeroPlan
    check (failWhen (imageSize.toNat < ehdrSize) .errSize)
    check m11ValidateIdent
    let type ← check (eType.read 0)
    check (failWhen (type ≠ etExec ∧ type ≠ etDyn) .errType)
    let machine ← check (eMachine.read 0)
    check (failWhen (machine ≠ emX86_64) .errMachine)
    let ehsize ← check (eEhsize.read 0)
    check (failWhen (ehsize ≠ ehdrSize) .errEhsize)
    check (m11ValidatePhdrBounds imageSize)
    let entry ← check (eEntry.read 0)
    check (failWhen (m11ValidateUserRange region entry 1 ≠ .ok ()) .errEntry)
    let phoff ← check (ePhoff.read 0)
    modify fun plan ↦ { plan with entry := entry }
    let phnum ← check (ePhnum.read 0)
    fillSegments imageSize region phnum phoff
    checkCount

/-! ## The plan of the other loader -/

/-- The structure that holds a plan, with zeros in the other slots. -/
def ofPlan (plan : ProcessImagePlan) : Plan where
  entry := plan.entry
  segmentCount := plan.segments.length
  segments i := plan.segments.getD i zeroSegment

/-- What the loop returns, and the structure after it. -/
def afterLoop : Except Err ProcessImagePlan → Except Err Unit × Plan
  | .error e => (.error e, ofPlan .zero)
  | .ok plan => (.ok (), ofPlan plan)

/-- What the loader returns, and the structure after it. -/
def afterLoad (r : Except Err Unit × Option ProcessImagePlan) : Except Err Unit × Plan :=
  (r.1, ofPlan (r.2.getD .zero))

variable {m : Mem} {imageSize : UInt64} {region : UserRegion}

theorem fill_ofPlan (plan : ProcessImagePlan) (seg : SegmentPlan)
    (h : plan.segments.length < maxLoadSegments) :
    (ofPlan plan).fill seg h = ofPlan (plan.push seg h) := by
  have hslots : Function.update (ofPlan plan).segments ⟨plan.segments.length, h⟩ seg =
      fun i ↦ (plan.segments ++ [seg]).getD i.val zeroSegment := by
    funext i
    rw [Function.update_apply, List.getD_eq_getElem?_getD, List.getElem?_append]
    split_ifs with heq hlt
    · exact absurd hlt (by rw [heq]; exact lt_irrefl _)
    · rw [heq]
      simp
    · exact List.getD_eq_getElem?_getD
    · -- a slot behind the new one is still zero
      have hne : i.val ≠ plan.segments.length := fun hval ↦ heq (Fin.ext hval)
      rw [List.getElem?_eq_none (by simp; omega)]
      exact List.getD_eq_default _ _ (by omega)
  have hcount : (plan.push seg h).segments.length = plan.segments.length + 1 :=
    List.length_append
  change Plan.mk plan.entry (plan.segments.length + 1) _ = Plan.mk plan.entry _ _
  rw [hcount]
  exact congrArg (Plan.mk plan.entry (plan.segments.length + 1)) hslots

theorem run_read (f : Field) (base : ℕ) : ((f.read base).run m).1 = some (.ok (f.of m base)) := rfl

theorem run_readSegment (ph : ℕ) :
    ((readSegment ph).run m).1 = some (.ok (phdrAt m ph).segment) := rfl

/-- The loop fills the slots as the other loop extends its plan. The induction is on the number of
headers left. -/
theorem follows_fillSegments (n ph : ℕ) (plan : ProcessImagePlan) :
    Follows (fillSegments imageSize region n ph) (planSegments imageSize region n ph plan)
      (ofPlan plan) m afterLoop := by
  induction n generalizing ph plan with
  | zero => rfl
  | succ n ih =>
    rw [fillSegments, planSegments]
    refine .ok_bind (run_read pType ph) ?_
    split_ifs with htype hslot
    · exact ih (ph + phdrSize) plan
    · refine .get_bind ?_
      rw [dif_pos (show (ofPlan plan).segmentCount < maxLoadSegments from hslot)]
      refine .onError_bind (fun _ ↦ rfl) fun _ ↦ .ok_bind (run_readSegment ph) (.set_bind ?_)
      rw [fill_ofPlan]
      exact ih (ph + phdrSize) _
    · refine .get_bind ?_
      rw [dif_neg (show ¬(ofPlan plan).segmentCount < maxLoadSegments from hslot)]
      exact .modify_bind rfl

theorem follows_checkCount {y : Filling Plan Err Unit} {x : Checked Err ProcessImagePlan}
    {plan : Plan} (h : Follows y x plan m afterLoop) :
    Follows (y >>= fun _ ↦ checkCount) x plan m fun r ↦ afterLoad (planResult r) := by
  rw [Follows, result_bind, h]
  cases (x.run m).1 with
  | none => rfl
  | some r =>
    cases r with
    | error e => rfl
    | ok plan =>
      change (checkCount : Filling Plan Err Unit).result (ofPlan plan) m = _
      rw [checkCount, result_bind, Option.map_some, planResult]
      change (if plan.segments.length = 0 then throw .errSegcount
        else pure () : Filling Plan Err Unit).result (ofPlan plan) m = _
      split_ifs <;> rfl

theorem follows_m11Elf64PlanLoad (m : Mem) (imageSize : UInt64) (region : UserRegion)
    (old : Plan) : Follows (m11Elf64PlanLoad true imageSize region) (planImage imageSize region)
      old m fun r ↦ afterLoad (planResult r) := by
  have hkeep (e : Err) : afterLoad (planResult (.error e)) = (.error e, m11ZeroPlan old) := rfl
  rw [m11Elf64PlanLoad, if_neg (by decide), planImage]
  exact .modify_bind <| .check_bind hkeep fun _ ↦ .check_bind hkeep fun _ ↦
    .check_bind hkeep fun _ ↦ .check_bind hkeep fun _ ↦ .check_bind hkeep fun _ ↦
    .check_bind hkeep fun _ ↦ .check_bind hkeep fun _ ↦ .check_bind hkeep fun _ ↦
    .check_bind hkeep fun _ ↦ .check_bind hkeep fun _ ↦ .check_bind hkeep fun _ ↦
    .check_bind hkeep fun _ ↦ .modify_bind <| .ok_bind (run_read ePhnum 0) <|
    follows_checkCount (follows_fillSegments _ _ _)

/-- The two loaders agree: they return the same code, and the structure holds the plan. -/
theorem result_m11Elf64PlanLoad (m : Mem) (imageSize : UInt64) (region : UserRegion) (old : Plan)
    (old' : ProcessImagePlan) :
    (m11Elf64PlanLoad true imageSize region).result old m =
      (Elf.m11Elf64PlanLoad true imageSize region (some old') m).1.map afterLoad := by
  obtain ⟨r, hrun⟩ := (decides_planImage m imageSize region).ends
  rw [follows_m11Elf64PlanLoad, hrun, m11Elf64PlanLoad_of_run hrun]
  rfl

/-! ## Rejected images -/

/-- Every field is zero. -/
def Plan.Zero (plan : Plan) : Prop :=
  plan.entry = 0 ∧ plan.segmentCount = 0 ∧ ∀ i, plan.segments i = zeroSegment

/-- The image has a good header, nothing to load, and an entry point other than 0. -/
def NothingToLoad (m : Mem) (imageSize : ℕ) (region : UserRegion) : Prop :=
  Header m imageSize region ∧ loadHeaders m = [] ∧ eEntry.of m 0 ≠ 0

theorem zero_ofPlan : (ofPlan .zero).Zero := ⟨rfl, rfl, fun _ ↦ rfl⟩

/-- The loader always returns. If it gets to the end of the loop, the structure holds the plan of
the image, and otherwise it is zero. -/
theorem result_cases (m : Mem) (imageSize : UInt64) (region : UserRegion) (old : Plan) :
    (∃ plan, IsPlan plan m ∧ Header m imageSize.toNat region ∧
      (∀ ph ∈ loadHeaders m, ph.WellFormed imageSize.toNat region) ∧
      (m11Elf64PlanLoad true imageSize region).result old m =
        some (if loadHeaders m = [] then .error .errSegcount else .ok (), ofPlan plan)) ∨
    ∃ e, ¬(Header m imageSize.toNat region ∧ loadHeaders m = []) ∧
      (m11Elf64PlanLoad true imageSize region).result old m = some (.error e, ofPlan .zero) := by
  have hplan := decides_planImage m imageSize region
  rw [follows_m11Elf64PlanLoad]
  by_cases hC : Header m imageSize.toNat region ∧
      (∀ ph ∈ loadHeaders m, ph.WellFormed imageSize.toNat region) ∧
      (loadHeaders m).length ≤ maxLoadSegments
  · obtain ⟨plan, hrun, hisPlan⟩ := hplan.accepts hC
    refine .inl ⟨plan, hisPlan, hC.1, hC.2.1, ?_⟩
    have hnil : plan.segments.length = 0 ↔ loadHeaders m = [] := by
      rw [hisPlan.2, List.length_map, List.length_eq_zero_iff]
    rw [hrun, Option.map_some, planResult]
    simp only [hnil]
    split_ifs <;> rfl
  · obtain ⟨e, hrun⟩ := hplan.rejects hC
    refine .inr ⟨e, fun hand ↦ hC ⟨hand.1, ?_, ?_⟩, by rw [hrun]; rfl⟩
    · rw [hand.2]
      exact fun _ hmem ↦ absurd hmem List.not_mem_nil
    · rw [hand.2]
      exact Nat.zero_le _

/-- **A rejected image leaves a plan of zeros, unless it has a good header and nothing to load.**
For every image, size, region and content of the structure before: the loader returns, and if it
returns an error then every field is zero, exactly if the image is not one with a good header,
without a program header of type `PT_LOAD` and with an entry point other than 0. -/
theorem rejected_plan_zero_iff (m : Mem) (imageSize : UInt64) (region : UserRegion) (old : Plan) :
    ∃ rc plan, (m11Elf64PlanLoad true imageSize region).result old m = some (rc, plan) ∧
      ((rc ≠ .ok () → plan.Zero) ↔ ¬NothingToLoad m imageSize.toNat region) := by
  rcases result_cases m imageSize region old with
    ⟨plan, ⟨hentry, hsegments⟩, hheader, -, hresult⟩ | ⟨e, hnot, hresult⟩
  · refine ⟨_, _, hresult, ?_⟩
    by_cases hnil : loadHeaders m = []
    · rw [if_pos hnil]
      rw [hnil, List.map_nil] at hsegments
      constructor
      · rintro hzero ⟨-, -, hne⟩
        exact hne (hentry.symm.trans (hzero nofun).1)
      · intro hbad _
        have hzero : eEntry.of m 0 = 0 := not_not.mp fun hne ↦ hbad ⟨hheader, hnil, hne⟩
        refine ⟨hentry.trans hzero, congrArg List.length hsegments, fun i ↦ ?_⟩
        change plan.segments.getD i zeroSegment = zeroSegment
        rw [hsegments]
        rfl
    · rw [if_neg hnil]
      exact iff_of_true (fun hne ↦ absurd rfl hne) fun hbad ↦ hnil hbad.2.1
  · exact ⟨_, _, hresult, iff_of_true (fun _ ↦ zero_ofPlan) fun hbad ↦ hnot ⟨hbad.1, hbad.2.1⟩⟩

/-- `smallImage` with a program header of type `PT_NULL` in the place of its segment. -/
def emptyImage : Mem := smallImage.store pType.width (ehdrSize + pType.offset) 0

/-- The image is rejected, and the plan has its entry point. -/
theorem rejected_plan_keeps_entry :
    ((m11Elf64PlanLoad true 120 ⟨0x400000, 0x800000⟩).result (ofPlan .zero) emptyImage).map
      (fun r ↦ (r.1, r.2.entry)) = some (.error .errSegcount, 0x400078) := by decide +kernel

/-! ## Writable and executable addresses -/

/-- The slot is one of the first `segment_count`, and the address lies in its range. -/
def Plan.Covers (plan : Plan) (i : Fin maxLoadSegments) (a : ℕ) : Prop :=
  i.val < plan.segmentCount ∧ (plan.segments i).vaddr ≤ a ∧
    a < (plan.segments i).vaddr + (plan.segments i).memsz

/-- `PF_W` -/
def Plan.Writable (plan : Plan) (i : Fin maxLoadSegments) : Prop :=
  (plan.segments i).flags &&& pfW ≠ 0

/-- `PF_X` -/
def Plan.Executable (plan : Plan) (i : Fin maxLoadSegments) : Prop :=
  (plan.segments i).flags &&& pfX ≠ 0

instance : NeZero maxLoadSegments := ⟨by decide⟩

instance (plan : Plan) (i : Fin maxLoadSegments) (a : ℕ) : Decidable (plan.Covers i a) :=
  inferInstanceAs (Decidable (_ ∧ _))

instance (plan : Plan) (i : Fin maxLoadSegments) : Decidable (plan.Writable i) :=
  inferInstanceAs (Decidable (_ ≠ _))

instance (plan : Plan) (i : Fin maxLoadSegments) : Decidable (plan.Executable i) :=
  inferInstanceAs (Decidable (_ ≠ _))

/-- No address lies in a writable segment and in an executable one. -/
def Plan.SeparatesAddresses (plan : Plan) : Prop :=
  ∀ a i j, plan.Covers i a → plan.Covers j a → ¬(plan.Writable i ∧ plan.Executable j)

/-- The ranges of two program headers have no address in common. -/
def Apart (p q : Phdr) : Prop := p.vaddr + p.memsz ≤ q.vaddr ∨ q.vaddr + q.memsz ≤ p.vaddr

/-- No writable segment that the image asks for meets an executable one. -/
def SeparatesRanges (m : Mem) : Prop :=
  ∀ p ∈ loadHeaders m, ∀ q ∈ loadHeaders m, p.flags &&& pfW ≠ 0 → q.flags &&& pfX ≠ 0 → Apart p q

instance (p q : Phdr) : Decidable (Apart p q) := inferInstanceAs (Decidable (_ ∨ _))

instance (m : Mem) : Decidable (SeparatesRanges m) :=
  inferInstanceAs (Decidable (∀ p ∈ loadHeaders m, ∀ q ∈ loadHeaders m,
    p.flags &&& pfW ≠ 0 → q.flags &&& pfX ≠ 0 → Apart p q))

theorem exists_header {plan : ProcessImagePlan} (h : IsPlan plan m) {i : Fin maxLoadSegments}
    (hi : i.val < (ofPlan plan).segmentCount) :
    ∃ ph ∈ loadHeaders m, (ofPlan plan).segments i = ph.segment := by
  have hlength : plan.segments.length = (loadHeaders m).length := by rw [h.2, List.length_map]
  have hlt : i.val < (loadHeaders m).length := hlength ▸ hi
  refine ⟨(loadHeaders m)[i.val], List.getElem_mem hlt, ?_⟩
  change plan.segments.getD i.val zeroSegment = _
  rw [h.2, List.getD_eq_getElem?_getD, List.getElem?_map, List.getElem?_eq_getElem hlt]
  rfl

theorem exists_slot {plan : ProcessImagePlan} (h : IsPlan plan m) {ph : Phdr}
    (hph : ph ∈ loadHeaders m) :
    ∃ i, i.val < (ofPlan plan).segmentCount ∧ (ofPlan plan).segments i = ph.segment := by
  have hmem : ph.segment ∈ plan.segments := h.2 ▸ List.mem_map_of_mem hph
  obtain ⟨i, hi, heq⟩ := List.mem_iff_getElem.mp hmem
  refine ⟨⟨i, hi.trans_le plan.length_le⟩, hi, ?_⟩
  change plan.segments.getD i zeroSegment = _
  rw [List.getD_eq_getElem _ _ hi, heq]

theorem separatesAddresses_iff {plan : ProcessImagePlan} (h : IsPlan plan m)
    (hpos : ∀ ph ∈ loadHeaders m, 0 < ph.memsz) :
    (ofPlan plan).SeparatesAddresses ↔ SeparatesRanges m := by
  constructor
  · intro hseparates p hp q hq hw hx
    obtain ⟨i, hi, hip⟩ := exists_slot h hp
    obtain ⟨j, hj, hjq⟩ := exists_slot h hq
    have hp0 := hpos p hp
    have hq0 := hpos q hq
    by_contra hapart
    obtain ⟨hpq, hqp⟩ := not_or.mp hapart
    -- two ranges that meet have the larger one of their first addresses in common
    refine hseparates (max p.vaddr q.vaddr) i j ⟨hi, ?_⟩ ⟨hj, ?_⟩ ⟨?_, ?_⟩
    · rw [hip]
      exact ⟨le_max_left _ _, max_lt (Nat.lt_add_of_pos_right hp0) (Nat.lt_of_not_le hpq)⟩
    · rw [hjq]
      exact ⟨le_max_right _ _, max_lt (Nat.lt_of_not_le hqp) (Nat.lt_add_of_pos_right hq0)⟩
    · rw [Plan.Writable, hip]
      exact hw
    · rw [Plan.Executable, hjq]
      exact hx
  · rintro hseparates a i j ⟨hi, hle, hlt⟩ ⟨hj, hle', hlt'⟩ ⟨hw, hx⟩
    obtain ⟨p, hp, hip⟩ := exists_header h hi
    obtain ⟨q, hq, hjq⟩ := exists_header h hj
    rw [Plan.Writable, hip] at hw
    rw [Plan.Executable, hjq] at hx
    rw [hip] at hle hlt
    rw [hjq] at hle' hlt'
    rcases hseparates p hp q hq hw hx with hpq | hqp
    · exact absurd (hlt.trans_le (hpq.trans hle')) (lt_irrefl a)
    · exact absurd (hlt'.trans_le (hqp.trans hle)) (lt_irrefl a)

/-- **No planned segment is writable and executable.** An address that is both lies in two
segments, and there is none exactly if no writable segment that the image asks for meets an
executable one. -/
theorem planned_segments_wx {m : Mem} {imageSize : UInt64} {region : UserRegion} {old plan : Plan}
    (h : (m11Elf64PlanLoad true imageSize region).result old m = some (.ok (), plan)) :
    (∀ i, i.val < plan.segmentCount → ¬(plan.Writable i ∧ plan.Executable i)) ∧
      (plan.SeparatesAddresses ↔ SeparatesRanges m) := by
  rcases result_cases m imageSize region old with
    ⟨plan', hisPlan, -, hall, hresult⟩ | ⟨e, -, hresult⟩
  · obtain ⟨-, rfl⟩ := Prod.mk.inj (Option.some.inj (hresult.symm.trans h))
    refine ⟨fun i hi hwx ↦ ?_, separatesAddresses_iff hisPlan fun ph hph ↦ (hall ph hph).memsz_pos⟩
    obtain ⟨ph, hph, heq⟩ := exists_header hisPlan hi
    rw [Plan.Writable, Plan.Executable, heq] at hwx
    exact (hall ph hph).not_wx hwx
  · exact absurd (hresult.symm.trans h) (by simp)

/-- `smallImage` with a second segment, which is writable and starts at `vaddr`. -/
def twoSegments (vaddr : ℕ) : Mem :=
  let base := ehdrSize + phdrSize
  let members : List (Field × ℕ × ℕ) :=
    [(ePhnum, 0, 2), (pType, base, ptLoad), (pFlags, base, pfR ||| pfW), (pVaddr, base, vaddr),
      (pMemsz, base, 4096)]
  members.foldl (fun m member ↦ m.store member.1.width (member.2.1 + member.1.offset) member.2.2)
    smallImage

/-- The two segments are next to each other. -/
theorem planned_segments_wx_adjacent : ∃ plan,
    (m11Elf64PlanLoad true 176 ⟨0x400000, 0x800000⟩).result (ofPlan .zero)
      (twoSegments 0x401000) = some (.ok (), plan) ∧
    plan.Executable 0 ∧ plan.Writable 1 ∧ plan.SeparatesAddresses := by
  have hload : ((m11Elf64PlanLoad true 176 ⟨0x400000, 0x800000⟩).result (ofPlan .zero)
      (twoSegments 0x401000)).any
        (fun r ↦ r.1 = .ok () ∧ r.2.Executable 0 ∧ r.2.Writable 1) = true := by decide +kernel
  obtain ⟨⟨rc, plan⟩, hresult, hplan⟩ := (Option.any_eq_true _ _).mp hload
  obtain ⟨rfl, hx, hw⟩ := of_decide_eq_true hplan
  exact ⟨plan, hresult, hx, hw, (planned_segments_wx hresult).2.mpr (by decide +kernel)⟩

/-- The two segments are at the same address: it may be written and executed. -/
theorem wx_overlap_planned : ∃ plan,
    (m11Elf64PlanLoad true 176 ⟨0x400000, 0x800000⟩).result (ofPlan .zero)
      (twoSegments 0x400000) = some (.ok (), plan) ∧
    plan.Covers 0 0x400000 ∧ plan.Executable 0 ∧ plan.Covers 1 0x400000 ∧ plan.Writable 1 := by
  have hload : ((m11Elf64PlanLoad true 176 ⟨0x400000, 0x800000⟩).result (ofPlan .zero)
      (twoSegments 0x400000)).any
        (fun r ↦ r.1 = .ok () ∧ r.2.Covers 0 0x400000 ∧ r.2.Executable 0 ∧
          r.2.Covers 1 0x400000 ∧ r.2.Writable 1) = true := by decide +kernel
  obtain ⟨⟨rc, plan⟩, hresult, hplan⟩ := (Option.any_eq_true _ _).mp hload
  obtain ⟨rfl, hcovers⟩ := of_decide_eq_true hplan
  exact ⟨plan, hresult, hcovers⟩

end Mcsos.Elf.InPlace
