import Mathlib.Data.Nat.Notation

/-!
# Spinlocks

The atomic accesses of `spinlock.c` to the lock word. `mcs_spin_lock` repeats `mcs_spin_try_lock`,
with loads of the lock word in between.
-/

namespace Mcsos

namespace Sync

/-- `mcs_spinlock_t`. Its name is only stored. -/
structure Spinlock where
  locked : UInt32
  classId : UInt32

def spinInit (classId : UInt32) : Spinlock := ⟨0, classId⟩

/-- `mcs_spin_try_lock`: one atomic exchange. -/
def spinTryLock (lock : Spinlock) : Bool × Spinlock := (lock.locked == 0, { lock with locked := 1 })

/-- `mcs_spin_unlock`: one atomic store. -/
def spinUnlock (lock : Spinlock) : Spinlock := { lock with locked := 0 }

/-- `mcs_spin_is_locked`, also the load that `mcs_spin_lock` polls with. -/
def spinIsLocked (lock : Spinlock) : Bool := lock.locked != 0

@[simp] theorem locked_spinTryLock (lock : Spinlock) : (spinTryLock lock).2.locked = 1 := rfl

@[simp] theorem locked_spinUnlock (lock : Spinlock) : (spinUnlock lock).locked = 0 := rfl

/-- The exchange takes the lock exactly when it was free. -/
theorem spinTryLock_eq_true_iff {lock : Spinlock} :
    (spinTryLock lock).1 = true ↔ lock.locked = 0 := beq_iff_eq

end Sync

end Mcsos
