import Mathlib.Data.List.Range
import Mathlib.Data.Nat.Notation

/-!
# Lock-order checking

`lockdep.c`: a thread's stack of held lock classes. `stack` is the part of the array below `depth`;
`WellFormed` says that it is strictly increasing, which is what the two checks of
`mcs_lockdep_before_acquire` keep it.
-/

namespace Mcsos

namespace Sync

/-- The return codes `MCS_SYNC_*`. -/
inductive Status where
  | ok
  | einval
  | ebusy
  | eperm
  | edeadlk
  | eoverflow
  deriving DecidableEq, Repr

def lockdepMaxHeld : ℕ := 16

/-- `mcs_lockdep_state_t`. The arrays have `MCS_LOCKDEP_MAX_HELD` entries; a name is a pointer. -/
structure LockdepState where
  heldClass : ℕ → UInt32
  heldName : ℕ → UInt64
  depth : ℕ
  violationCount : UInt32

def lockdepInit : LockdepState where
  heldClass _ := 0
  heldName _ := 0
  depth := 0
  violationCount := 0

def lockdepIsHeld (state : LockdepState) (classId : UInt32) : Bool :=
  decide (classId ≠ 0 ∧ ∃ i < min state.depth lockdepMaxHeld, state.heldClass i = classId)

/-- The statement `state->violation_count++`. -/
def LockdepState.violation (state : LockdepState) : LockdepState :=
  { state with violationCount := state.violationCount + 1 }

def lockdepBeforeAcquire (state : LockdepState) (classId : UInt32) (name : UInt64) :
    Status × LockdepState :=
  if classId = 0 then (.einval, state)
  else if state.depth ≥ lockdepMaxHeld then (.eoverflow, state.violation)
  else if ∃ i < state.depth, state.heldClass i = classId then (.edeadlk, state.violation)
  else if state.depth > 0 ∧ classId < state.heldClass (state.depth - 1) then
    (.edeadlk, state.violation)
  else (.ok, { state with
    heldClass := Function.update state.heldClass state.depth classId
    heldName := Function.update state.heldName state.depth name
    depth := state.depth + 1 })

/-- `mcs_lockdep_after_release`. Its name argument is not used. -/
def lockdepAfterRelease (state : LockdepState) (classId : UInt32) : Status × LockdepState :=
  if classId = 0 then (.einval, state)
  else if state.depth = 0 then (.eperm, state.violation)
  else if state.heldClass (state.depth - 1) ≠ classId then (.edeadlk, state.violation)
  else (.ok, { state with
    heldClass := Function.update state.heldClass (state.depth - 1) 0
    heldName := Function.update state.heldName (state.depth - 1) 0
    depth := state.depth - 1 })

/-! ## The stack of held classes -/

namespace LockdepState

variable {state : LockdepState} {c : UInt32} {name : UInt64}

/-- The held classes, in the order in which they were acquired. -/
def stack (state : LockdepState) : List UInt32 := (List.range state.depth).map state.heldClass

theorem mem_stack {a : UInt32} : a ∈ state.stack ↔ ∃ i < state.depth, state.heldClass i = a := by
  simp only [stack, List.mem_map, List.mem_range]

theorem stack_succ {k : ℕ} (hk : state.depth = k + 1) :
    state.stack = (List.range k).map state.heldClass ++ [state.heldClass k] := by
  rw [stack, hk, List.range_succ, List.map_append, List.map_singleton]

/-- The stack is strictly increasing. -/
def WellFormed (state : LockdepState) : Prop := state.stack.Pairwise (· < ·)

theorem wellFormed_init : lockdepInit.WellFormed := List.Pairwise.nil

theorem WellFormed.le_top (h : state.WellFormed) {i : ℕ} (hi : i < state.depth) :
    (state.heldClass i).toNat ≤ (state.heldClass (state.depth - 1)).toNat := by
  obtain ⟨k, hk⟩ : ∃ k, state.depth = k + 1 := ⟨state.depth - 1, by omega⟩
  rw [WellFormed, stack_succ hk, List.pairwise_append] at h
  rw [hk, Nat.add_sub_cancel]
  by_cases hik : i = k
  · rw [hik]
  · have hlt := h.2.2 (state.heldClass i) (List.mem_map_of_mem (List.mem_range.mpr (by omega)))
      (state.heldClass k) (by simp)
    exact (UInt32.lt_iff_toNat_lt.mp hlt).le

theorem WellFormed.beforeAcquire_ok (h : state.WellFormed)
    (hok : (lockdepBeforeAcquire state c name).1 = .ok) :
    (lockdepBeforeAcquire state c name).2.stack = state.stack ++ [c] ∧
      ∀ a ∈ state.stack, a < c := by
  unfold lockdepBeforeAcquire at hok ⊢
  split at hok
  · cases hok
  · split at hok
    · cases hok
    · split at hok
      · cases hok
      · split at hok
        · cases hok
        · next hne htop =>
          refine ⟨?_, fun a ha ↦ ?_⟩
          · rw [if_neg (by assumption), if_neg (by assumption), if_neg hne, if_neg htop]
            simp only [stack, List.range_succ, List.map_append, List.map_cons, List.map_nil,
              Function.update_self]
            congr 1
            refine List.map_congr_left fun i hi ↦ Function.update_of_ne ?_ _ _
            rw [List.mem_range] at hi
            omega
          · obtain ⟨i, hi, rfl⟩ := mem_stack.mp ha
            have hle := h.le_top hi
            have hne' : (state.heldClass (state.depth - 1)).toNat ≠ c.toNat := fun heq ↦
              hne ⟨state.depth - 1, by omega, UInt32.toNat_inj.mp heq⟩
            rw [not_and, UInt32.lt_iff_toNat_lt] at htop
            have := htop (by omega)
            rw [UInt32.lt_iff_toNat_lt]
            omega

theorem stack_beforeAcquire_of_ne (hne : (lockdepBeforeAcquire state c name).1 ≠ .ok) :
    (lockdepBeforeAcquire state c name).2.stack = state.stack := by
  unfold lockdepBeforeAcquire at hne ⊢
  split_ifs at hne ⊢ <;> first | rfl | exact absurd rfl hne

theorem WellFormed.beforeAcquire (h : state.WellFormed) :
    (lockdepBeforeAcquire state c name).2.WellFormed := by
  by_cases hok : (lockdepBeforeAcquire state c name).1 = .ok
  · obtain ⟨hstack, hlt⟩ := h.beforeAcquire_ok hok
    rw [WellFormed, hstack, List.pairwise_append]
    exact ⟨h, List.pairwise_singleton _ _, fun a ha b hb ↦ List.mem_singleton.mp hb ▸ hlt a ha⟩
  · rw [WellFormed, stack_beforeAcquire_of_ne hok]
    exact h

theorem beforeAcquire_ne_zero (hok : (lockdepBeforeAcquire state c name).1 = .ok) : c ≠ 0 := by
  rintro rfl
  rw [lockdepBeforeAcquire, if_pos rfl] at hok
  cases hok

theorem stack_afterRelease {l : List UInt32} (hc : c ≠ 0) (hstack : state.stack = l ++ [c]) :
    (lockdepAfterRelease state c).2.stack = l := by
  have hlen : state.depth = l.length + 1 := by
    have := congrArg List.length hstack
    rwa [stack, List.length_map, List.length_range, List.length_append,
      List.length_singleton] at this
  rw [stack_succ hlen] at hstack
  obtain ⟨hl, htop⟩ := List.append_inj' hstack rfl
  have htop' : state.heldClass (state.depth - 1) = c := by
    rw [hlen, Nat.add_sub_cancel]
    exact List.singleton_inj.mp htop
  rw [lockdepAfterRelease, if_neg hc, if_neg (by omega), if_neg (not_not.mpr htop')]
  simp only [stack, hlen, Nat.add_sub_cancel]
  refine Eq.trans (List.map_congr_left fun i hi ↦ ?_) hl
  have hne : i ≠ l.length := (List.mem_range.mp hi).ne
  exact Function.update_of_ne hne 0 state.heldClass

end LockdepState

end Sync

end Mcsos
