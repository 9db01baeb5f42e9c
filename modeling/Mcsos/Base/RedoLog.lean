import Mathlib.Data.List.Basic
import Mathlib.Logic.Function.Basic

/-!
# Redo logs

The general theory of a store that is changed through a redo log. A transaction is a list of
writes; committing it means recording the list in the log, and recovery replays the recorded list
over the store and then empties the log.

The point of the abstraction is `State.contents`: the store as it *will* be once the log has been
replayed. A recovery attempt that is cut off after any number of its writes changes the store but
not the contents (`contents_recoverCut`), because replaying a list over a store that some of the
list has already reached gives the same store (`applyWrites_take_self`). So a crash during recovery
can be followed by any number of further attempts, and the first complete one makes the store equal
to the contents. No hypothesis is needed on the targets: a list may write the same address several
times.
-/

namespace Mcsos

variable {α β : Type*} [DecidableEq α]

/-- Perform a list of writes in order. -/
def applyWrites (d : α → β) (ws : List (α × β)) : α → β :=
  ws.foldl (fun d w ↦ Function.update d w.1 w.2) d

/-- The value the list leaves at `x`, if it writes there at all. -/
def lastWrite (x : α) : List (α × β) → Option β
  | [] => none
  | w :: ws => (lastWrite x ws).or (if w.1 = x then some w.2 else none)

@[simp] theorem applyWrites_nil (d : α → β) : applyWrites d [] = d := rfl

@[simp] theorem applyWrites_cons (d : α → β) (w : α × β) (ws : List (α × β)) :
    applyWrites d (w :: ws) = applyWrites (Function.update d w.1 w.2) ws := rfl

theorem applyWrites_append (d : α → β) (ws vs : List (α × β)) :
    applyWrites d (ws ++ vs) = applyWrites (applyWrites d ws) vs := List.foldl_append

/-- What a list of writes leaves at `x`: its last write there, or else the old value. -/
theorem applyWrites_apply (d : α → β) (ws : List (α × β)) (x : α) :
    applyWrites d ws x = (lastWrite x ws).getD (d x) := by
  induction ws generalizing d with
  | nil => rfl
  | cons w ws ih =>
    rw [applyWrites_cons, ih, lastWrite]
    cases lastWrite x ws with
    | some v => rfl
    | none =>
      by_cases hx : w.1 = x
      · subst hx; simp
      · simp [hx, Function.update_of_ne (Ne.symm hx)]

theorem lastWrite_eq_none_iff {x : α} {ws : List (α × β)} :
    lastWrite x ws = none ↔ ∀ w ∈ ws, w.1 ≠ x := by
  induction ws with
  | nil => simp [lastWrite]
  | cons w ws ih => simp [lastWrite, ih, and_comm]

theorem applyWrites_of_notMem {d : α → β} {ws : List (α × β)} {x : α}
    (h : ∀ w ∈ ws, w.1 ≠ x) : applyWrites d ws x = d x := by
  rw [applyWrites_apply, lastWrite_eq_none_iff.mpr h, Option.getD_none]

/-- Two stores that agree away from the targets agree everywhere after the writes. -/
theorem applyWrites_congr {d d' : α → β} {ws : List (α × β)} {x : α}
    (h : (∀ w ∈ ws, w.1 ≠ x) → d x = d' x) : applyWrites d ws x = applyWrites d' ws x := by
  rw [applyWrites_apply, applyWrites_apply]
  cases hlast : lastWrite x ws with
  | some v => rfl
  | none => exact h (lastWrite_eq_none_iff.mp hlast)

/-- Replaying a list over a store that a part of it has already reached. -/
theorem applyWrites_take_self (d : α → β) (ws : List (α × β)) (k : ℕ) :
    applyWrites (applyWrites d (ws.take k)) ws = applyWrites d ws := by
  funext x
  refine applyWrites_congr fun h ↦ ?_
  exact applyWrites_of_notMem fun w hw ↦ h w (List.mem_of_mem_take hw)

namespace RedoLog

/-- A store together with its log: empty, or holding a committed list of writes. -/
structure State (α β : Type*) where
  home : α → β
  log : Option (List (α × β))

namespace State

/-- The store as it will be once the log has been replayed. -/
def contents (s : State α β) : α → β :=
  match s.log with
  | none => s.home
  | some ws => applyWrites s.home ws

/-- A complete recovery: replay the log and empty it. -/
def recover (s : State α β) : State α β := ⟨s.contents, none⟩

/-- A recovery attempt of which only the first `k` writes land. The last of its writes is the one
that empties the log. -/
def recoverCut (s : State α β) (k : ℕ) : State α β :=
  match s.log with
  | none => s
  | some ws =>
    if k ≤ ws.length then ⟨applyWrites s.home (ws.take k), some ws⟩ else s.recover

theorem log_of_log_recoverCut {s : State α β} {k : ℕ} {ws : List (α × β)}
    (h : (s.recoverCut k).log = some ws) : s.log = some ws := by
  obtain ⟨home, log⟩ := s
  cases log with
  | none => exact h
  | some vs =>
    simp only [recoverCut] at h
    split at h
    · exact h
    · cases h

/-- **Interrupted recovery is invisible.** -/
theorem contents_recoverCut (s : State α β) (k : ℕ) : (s.recoverCut k).contents = s.contents := by
  obtain ⟨home, log⟩ := s
  cases log with
  | none => rfl
  | some ws =>
    simp only [recoverCut]
    split
    · exact applyWrites_take_self home ws k
    · rfl

end State

end RedoLog

end Mcsos
