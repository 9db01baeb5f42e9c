import Mcsos.Base.Machine
import Mcsos.Sync.Lockdep

/-!
# The history of a lock-order stack

Runs of `mcs_lockdep_before_acquire` and `mcs_lockdep_after_release` after `mcs_lockdep_init`, with
any class ids. `outstanding es` is what the history `es` says: the classes whose acquisition was
accepted and whose release was not, in the order of the acquisitions.

`mcs_lockdep_before_acquire` compares a class with all held ones for equality and with the last one
for order. In an arbitrary array these two tests say nothing about the classes in the middle. Since
only accepted classes are pushed and only the last one is popped, the array is strictly increasing
(`Stacked`), and then the tests mean that the class exceeds all held ones
(`beforeAcquire_ok_iff`).
-/

namespace Mcsos

namespace Sync

/-! ## Histories -/

/-- The calls that change the stack. -/
inductive LockdepCall where
  | beforeAcquire (classId : UInt32) (name : UInt64)
  | afterRelease (classId : UInt32)

/-- The function that is called. -/
def LockdepCall.run : LockdepCall → LockdepState → Status × LockdepState
  | .beforeAcquire classId name, state => lockdepBeforeAcquire state classId name
  | .afterRelease classId, state => lockdepAfterRelease state classId

/-- The classes acquired and not yet released after one more call. -/
def track (held : List UInt32) : LockdepCall × Status → List UInt32
  | (.beforeAcquire classId _, .ok) => held ++ [classId]
  | (.afterRelease classId, .ok) => held.erase classId
  | _ => held

/-- The classes acquired and not yet released. -/
def outstanding (es : List (LockdepCall × Status)) : List UInt32 := es.foldl track []

/-- The array below `depth` is strictly increasing and not zero, and the rest of it is zero. -/
structure Stacked (state : LockdepState) : Prop where
  depth_le : state.depth ≤ lockdepMaxHeld
  increasing : ∀ i j, i < j → j < state.depth → state.heldClass i < state.heldClass j
  nonzero : ∀ i < state.depth, state.heldClass i ≠ 0
  above : ∀ i, state.depth ≤ i → i < lockdepMaxHeld → state.heldClass i = 0

namespace LockdepState

variable {state : LockdepState} {c : UInt32} {name : UInt64}

theorem wellFormed_iff : state.WellFormed ↔
    ∀ i j, i < j → j < state.depth → state.heldClass i < state.heldClass j := by
  rw [WellFormed, stack, List.pairwise_map, List.pairwise_iff_getElem]
  simp only [List.length_range, List.getElem_range]
  exact ⟨fun h i j hij hj ↦ h i j (by omega) hj hij, fun h i j _ hj hij ↦ h i j hij hj⟩

/-- The two tests of `mcs_lockdep_before_acquire` together. -/
theorem WellFormed.beforeAcquire_ok_iff (h : state.WellFormed) :
    (lockdepBeforeAcquire state c name).1 = .ok ↔
      c ≠ 0 ∧ state.depth < lockdepMaxHeld ∧ ∀ a ∈ state.stack, a < c := by
  constructor
  · intro hok
    refine ⟨beforeAcquire_ne_zero hok, ?_, (h.beforeAcquire_ok hok).2⟩
    by_contra hfull
    rw [lockdepBeforeAcquire, if_neg (beforeAcquire_ne_zero hok), if_pos (not_lt.mp hfull)] at hok
    cases hok
  · rintro ⟨hc, hroom, habove⟩
    have hlt : ∀ i < state.depth, state.heldClass i < c := fun i hi ↦
      habove _ (mem_stack.mpr ⟨i, hi, rfl⟩)
    rw [lockdepBeforeAcquire, if_neg hc, if_neg (not_le.mpr hroom), if_neg, if_neg]
    · rintro ⟨hpos, htop⟩
      exact absurd (hlt (state.depth - 1) (by omega)) (UInt32.not_lt.mpr (UInt32.le_of_lt htop))
    · rintro ⟨i, hi, rfl⟩
      exact UInt32.lt_irrefl _ (hlt i hi)

/-- `mcs_lockdep_before_acquire` pushes the class, or it counts a violation at most. -/
theorem beforeAcquire_cases (state : LockdepState) (c : UInt32) (name : UInt64) :
    lockdepBeforeAcquire state c name = (.ok, { state with
      heldClass := Function.update state.heldClass state.depth c
      heldName := Function.update state.heldName state.depth name
      depth := state.depth + 1 }) ∨
    ∃ rc v, rc ≠ .ok ∧ lockdepBeforeAcquire state c name =
      (rc, { state with violationCount := v }) := by
  rw [lockdepBeforeAcquire]
  split_ifs
  · exact .inr ⟨_, state.violationCount, by decide, rfl⟩
  · exact .inr ⟨_, _, by decide, rfl⟩
  · exact .inr ⟨_, _, by decide, rfl⟩
  · exact .inr ⟨_, _, by decide, rfl⟩
  · exact .inl rfl

/-- `mcs_lockdep_after_release` pops the last class, or it counts a violation at most. -/
theorem afterRelease_cases (state : LockdepState) (c : UInt32) :
    (∃ l, c ≠ 0 ∧ state.stack = l ++ [c] ∧ lockdepAfterRelease state c = (.ok, { state with
      heldClass := Function.update state.heldClass (state.depth - 1) 0
      heldName := Function.update state.heldName (state.depth - 1) 0
      depth := state.depth - 1 })) ∨
    ∃ rc v, rc ≠ .ok ∧ (c ≠ 0 → state.stack.getLast? ≠ some c) ∧
      lockdepAfterRelease state c = (rc, { state with violationCount := v }) := by
  rw [lockdepAfterRelease]
  by_cases hc : c = 0
  · rw [if_pos hc]
    exact .inr ⟨_, state.violationCount, by decide, fun hne ↦ absurd hc hne, rfl⟩
  rw [if_neg hc]
  by_cases hzero : state.depth = 0
  · rw [if_pos hzero]
    exact .inr ⟨_, _, by decide, fun _ ↦ by simp [stack, hzero], rfl⟩
  rw [if_neg hzero]
  obtain ⟨k, hk⟩ := Nat.exists_eq_succ_of_ne_zero hzero
  have hstack := stack_succ hk
  have htop : state.depth - 1 = k := by rw [hk, Nat.succ_sub_one]
  by_cases heq : state.heldClass (state.depth - 1) = c
  · rw [if_neg (not_not.mpr heq)]
    rw [htop] at heq
    exact .inl ⟨_, hc, by rw [hstack, heq], rfl⟩
  · rw [if_pos heq]
    rw [htop] at heq
    exact .inr ⟨_, _, by decide, fun _ ↦ by simpa [hstack] using heq, rfl⟩

end LockdepState

/-! ## One call -/

open LockdepState

variable {state : LockdepState} {call : LockdepCall}

theorem track_of_failed {held : List UInt32} {rc : Status} (h : rc ≠ .ok) :
    track held (call, rc) = held := by
  cases call <;> cases rc <;> first | rfl | exact absurd rfl h

/-- A call that fails changes nothing but `violation_count`. -/
theorem run_of_failed (h : (call.run state).1 ≠ .ok) :
    ∃ v, (call.run state).2 = { state with violationCount := v } := by
  cases call with
  | beforeAcquire c name =>
    rcases beforeAcquire_cases state c name with heq | ⟨rc, v, -, heq⟩
    · exact absurd (congrArg Prod.fst heq) h
    · exact ⟨v, congrArg Prod.snd heq⟩
  | afterRelease c =>
    rcases afterRelease_cases state c with ⟨l, -, -, heq⟩ | ⟨rc, v, -, -, heq⟩
    · exact absurd (congrArg Prod.fst heq) h
    · exact ⟨v, congrArg Prod.snd heq⟩

namespace Stacked

theorem init : Stacked lockdepInit where
  depth_le := Nat.zero_le _
  increasing _ _ _ hj := absurd hj (Nat.not_lt_zero _)
  nonzero _ hi := absurd hi (Nat.not_lt_zero _)
  above _ _ _ := rfl

theorem wellFormed (h : Stacked state) : state.WellFormed := wellFormed_iff.mpr h.increasing

theorem beforeAcquire {c : UInt32} {name : UInt64} (h : Stacked state)
    (hok : (lockdepBeforeAcquire state c name).1 = .ok) :
    Stacked (lockdepBeforeAcquire state c name).2 := by
  obtain ⟨hc, hroom, -⟩ := h.wellFormed.beforeAcquire_ok_iff.mp hok
  have hwellFormed : LockdepState.WellFormed (lockdepBeforeAcquire state c name).2 :=
    h.wellFormed.beforeAcquire
  have hincreasing := wellFormed_iff.mp hwellFormed
  rcases beforeAcquire_cases state c name with heq | ⟨rc, v, hrc, heq⟩
  · rw [heq] at hincreasing ⊢
    refine ⟨hroom, hincreasing, ?_, ?_⟩
    · intro i hi
      rcases Nat.lt_succ_iff_lt_or_eq.mp hi with hlt | rfl
      · simpa [hlt.ne] using h.nonzero i hlt
      · simpa using hc
    · intro i hle hi
      have hne : i ≠ state.depth := (Nat.lt_of_succ_le hle).ne'
      simpa [hne] using h.above i (Nat.le_of_succ_le hle) hi
  · rw [heq] at hok
    exact absurd hok hrc

theorem afterRelease {c : UInt32} (h : Stacked state)
    (hok : (lockdepAfterRelease state c).1 = .ok) :
    Stacked (lockdepAfterRelease state c).2 := by
  rcases afterRelease_cases state c with ⟨l, -, -, heq⟩ | ⟨rc, v, hrc, -, heq⟩
  · rw [heq]
    have hsame : ∀ i < state.depth - 1,
        Function.update state.heldClass (state.depth - 1) 0 i = state.heldClass i :=
      fun i hi ↦ Function.update_of_ne hi.ne ..
    refine ⟨(Nat.sub_le _ _).trans h.depth_le, ?_, ?_, ?_⟩ <;> dsimp only
    · intro i j hij hj
      rw [hsame i (hij.trans hj), hsame j hj]
      exact h.increasing i j hij (hj.trans_le (Nat.sub_le _ _))
    · intro i hi
      rw [hsame i hi]
      exact h.nonzero i (hi.trans_le (Nat.sub_le _ _))
    · intro i hle hi
      by_cases htop : i = state.depth - 1
      · rw [htop, Function.update_self]
      · rw [Function.update_of_ne htop]
        exact h.above i (by omega) hi
  · rw [heq] at hok
    exact absurd hok hrc

/-- A call keeps the invariant, and changes the stack as the history says. -/
theorem step (h : Stacked state) (call : LockdepCall) :
    Stacked (call.run state).2 ∧
      (call.run state).2.stack = track state.stack (call, (call.run state).1) := by
  by_cases hok : (call.run state).1 = .ok
  · cases call with
    | beforeAcquire c name =>
      refine ⟨h.beforeAcquire hok, ?_⟩
      rw [hok]
      exact (h.wellFormed.beforeAcquire_ok hok).1
    | afterRelease c =>
      refine ⟨h.afterRelease hok, ?_⟩
      rw [hok]
      rcases afterRelease_cases state c with ⟨l, hc, hstack, -⟩ | ⟨rc, v, hrc, -, heq⟩
      · have hnot : c ∉ l := by
          intro hmem
          have hpair := h.wellFormed
          rw [WellFormed, hstack, List.pairwise_append] at hpair
          exact UInt32.lt_irrefl c (hpair.2.2 c hmem c List.mem_cons_self)
        rw [track, hstack, List.erase_append_right _ hnot, List.erase_cons_head, List.append_nil]
        exact stack_afterRelease hc hstack
      · exact absurd ((congrArg Prod.fst heq).symm.trans hok) hrc
  · obtain ⟨v, hstate⟩ := run_of_failed hok
    rw [track_of_failed hok, hstate]
    exact ⟨⟨h.depth_le, h.increasing, h.nonzero, h.above⟩, rfl⟩

theorem mem_stack_iff_isHeld (h : Stacked state) (c : UInt32) :
    lockdepIsHeld state c = true ↔ c ∈ state.stack := by
  rw [lockdepIsHeld, decide_eq_true_iff, mem_stack, Nat.min_eq_left h.depth_le]
  constructor
  · exact And.right
  · rintro ⟨i, hi, rfl⟩
    exact ⟨h.nonzero i hi, i, hi, rfl⟩

theorem afterRelease_ok_iff (h : Stacked state) (c : UInt32) :
    (lockdepAfterRelease state c).1 = .ok ↔ state.stack.getLast? = some c := by
  rcases afterRelease_cases state c with ⟨l, -, hstack, heq⟩ | ⟨rc, v, hrc, hlast, heq⟩
  · simp [heq, hstack]
  · rw [heq]
    refine iff_of_false hrc fun htop ↦ hlast ?_ htop
    obtain ⟨i, hi, rfl⟩ := mem_stack.mp (List.mem_of_getLast? htop)
    exact h.nonzero i hi

end Stacked

/-! ## Runs -/

theorem stacked_of_run {es : List (LockdepCall × Status)}
    (hrun : Run LockdepCall.run (fun _ _ ↦ True) lockdepInit es state) :
    Stacked state ∧ state.stack = outstanding es := by
  induction hrun with
  | nil => exact ⟨.init, rfl⟩
  | snoc _ call _ ih =>
    obtain ⟨hstacked, hstack⟩ := ih
    obtain ⟨hstep, htrack⟩ := hstacked.step call
    refine ⟨hstep, ?_⟩
    rw [htrack, hstack, outstanding, outstanding, List.foldl_append, List.foldl_cons,
      List.foldl_nil]

/-- **The lock-order stack is strictly ascending and exact.** After any calls with any class ids,
the array below `depth` is strictly increasing and not zero and the rest of it is zero. A class is
accepted if and only if it is not zero, there is room, and it exceeds every held class; it can be
released if and only if it is the last one acquired and not yet released; it is held if and only if
it was acquired and not yet released. A call that fails changes nothing but `violation_count`. -/
theorem lockdep_exact {es : List (LockdepCall × Status)}
    (hrun : Run LockdepCall.run (fun _ _ ↦ True) lockdepInit es state) :
    Stacked state ∧
    (∀ c name, (lockdepBeforeAcquire state c name).1 = .ok ↔
      c ≠ 0 ∧ state.depth < lockdepMaxHeld ∧ ∀ i < state.depth, state.heldClass i < c) ∧
    (∀ c, (lockdepAfterRelease state c).1 = .ok ↔ (outstanding es).getLast? = some c) ∧
    (∀ c, lockdepIsHeld state c = true ↔ c ∈ outstanding es) ∧
    ∀ call : LockdepCall, (call.run state).1 ≠ .ok →
      ∃ v, (call.run state).2 = { state with violationCount := v } := by
  obtain ⟨hstacked, hstack⟩ := stacked_of_run hrun
  rw [← hstack]
  refine ⟨hstacked, fun c name ↦ ?_, hstacked.afterRelease_ok_iff,
    hstacked.mem_stack_iff_isHeld, fun _ ↦ run_of_failed⟩
  have hall : (∀ a ∈ state.stack, a < c) ↔ ∀ i < state.depth, state.heldClass i < c := by
    simp [mem_stack]
  rw [hstacked.wellFormed.beforeAcquire_ok_iff, hall]

/-- Two classes are acquired, a class between them is refused, and the last one is released. -/
theorem lockdep_exact_two : ∃ es state,
    Run LockdepCall.run (fun _ _ ↦ True) lockdepInit es state ∧
      es.map Prod.snd = [.ok, .ok, .edeadlk, .ok] ∧ lockdepIsHeld state 10 = true := by
  have hrun : Run LockdepCall.run (fun _ _ ↦ True) lockdepInit _ _ :=
    (((Run.nil.snoc (.beforeAcquire 10 1) trivial).snoc (.beforeAcquire 20 2) trivial).snoc
      (.beforeAcquire 15 3) trivial).snoc (.afterRelease 20) trivial
  exact ⟨_, _, hrun, by decide +kernel,
    ((lockdep_exact hrun).2.2.2.1 10).mpr (by decide +kernel)⟩

end Sync

end Mcsos
