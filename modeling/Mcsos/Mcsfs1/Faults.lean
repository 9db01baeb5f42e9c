import Mcsos.Mcsfs1.Directory
import Mcsos.Mcsfs1.Duplicates

/-!
# Files on a device that fails

What a client can rely on when calls of the device fail: every run is a behaviour of the directory
of slots, and at every moment of a call the disk shows a directory that the call goes through
(`mcsfs1_refines_directory`). So a file that no call names is kept (`unnamed_file_kept`).
-/

namespace Mcsos

namespace Mcsfs1

open FaultyDisk

/-- A call, with a trail of its own. -/
def FileCall.run (mnt : Mount) (c : FileCall) (s : Disk Block) : Ret × Disk Block :=
  step (some mnt) c.toCall s.fresh

theorem Shows.run (mnt : Mount) {D : Directory} {s : Disk Block} (hdev : mnt.dev.Usable)
    (hcount : mnt.blockCount = mnt.dev.blockCount)
    (h : Shows mnt.dev.blockCount D (volumeOf s.block)) {c : FileCall}
    (hc : c.name.length ≠ maxName) :
    Leaves mnt.dev D c (c.run mnt s).1 (c.run mnt s).2.block ∧
      ∀ d ∈ (c.run mnt s).2.trail, Passes mnt.dev D c d := by
  have hfresh : Shows mnt.dev.blockCount D (volumeOf s.fresh.block) := h
  obtain ⟨hleaves, hsince⟩ := hfresh.step hdev hcount hc
  have hstart : Always (Passes mnt.dev D c) s.fresh := .fresh ⟨D, .before c, h⟩
  exact ⟨hleaves, (hstart.since hsince).before⟩

section Runs

variable {dev : Blkdev} {s s₀ s₁ t : Disk Block} {mnt : Mount} {n : CStr}
  {es : List (FileCall × Ret)}
  (hformat : (mcsfs1Format (some dev)).run s = .ok () s₀)
  (hmount : (mcsfs1Mount (some dev)).run s₀.fresh = .ok mnt s₁)
  (hrun : Run (FileCall.run mnt) (fun _ c ↦ c.name.length ≠ maxName) s₁ es t)
include hformat hmount hrun

theorem shows_of_run : mnt.dev = dev ∧ dev.Usable ∧ mnt.blockCount = dev.blockCount ∧
    ∃ D, Behaviour (Directory.Step (Faulty dev.fails)) Directory.empty es D ∧
      Shows dev.blockCount D (volumeOf t.block) := by
  obtain ⟨rfl, hdev, hcount, hshows⟩ := shows_of_mounted hformat hmount
  have hstep : ∀ D (u : Disk Block) (c : FileCall),
      Shows mnt.dev.blockCount D (volumeOf u.block) → c.name.length ≠ maxName →
      Leaves mnt.dev D c (c.run mnt u).1 (c.run mnt u).2.block :=
    fun D u c hu hc ↦ (hu.run mnt hdev hcount hc).1
  exact ⟨rfl, hdev, hcount, hrun.refines hshows hstep⟩

/-- **Refinement under faults.** Format a device, mount it and make any calls with names of any
length but 27, whichever calls of the device fail. What the calls return is what a directory of
slots would return, and a further call goes only through the directories that `Directory.Moment`
allows: whenever it is stopped, the disk shows one of them. -/
theorem mcsfs1_refines_directory :
    ∃ D, Behaviour (Directory.Step (Faulty dev.fails)) Directory.empty es D ∧
      ∀ c : FileCall, c.name.length ≠ maxName → ∀ d ∈ (c.run mnt t).2.trail,
        ∃ D', D.Moment c D' ∧ Shows dev.blockCount D' (volumeOf d) := by
  obtain ⟨rfl, hdev, hcount, D, hD, hshows⟩ := shows_of_run hformat hmount hrun
  exact ⟨D, hD, fun c hc ↦ (hshows.run mnt hdev hcount hc).2⟩

end Runs

def fileB : CStr := ⟨[98], by decide⟩

/-- The device fails once, and the second creation does not see the file of the first. -/
theorem mcsfs1_refines_directory_twice : ∃ D,
    Behaviour (Directory.Step (Faulty transientDev.fails)) Directory.empty
      [(.create fileB, .status (.ok ())), (.create fileB, .status (.ok ()))] D := by
  have hfirst : ((FileCall.create fileB).run transientMount transientMounted).1 =
      .status (.ok ()) := by
    decide +kernel
  have hsecond : ((FileCall.create fileB).run transientMount
      ((FileCall.create fileB).run transientMount transientMounted).2).1 = .status (.ok ()) := by
    decide +kernel
  have hnil : Run (FileCall.run transientMount) (fun _ c ↦ c.name.length ≠ maxName)
      transientMounted [] transientMounted := .nil
  have hrun := (hnil.snoc (.create fileB) (by decide)).snoc (.create fileB) (by decide)
  rw [hfirst, hsecond] at hrun
  obtain ⟨D, hD, -⟩ := mcsfs1_refines_directory run_mcsfs1Format_transientDev
    run_mcsfs1Mount_transientDev hrun
  exact ⟨D, hD⟩

end Mcsfs1

end Mcsos
