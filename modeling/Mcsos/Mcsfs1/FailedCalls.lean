import Mcsos.Mcsfs1.Consistency

/-!
# Calls that fail

What a call leaves on the disk when it returns an error and the device has not failed. Creating and
removing a file check everything before their first write, and so does writing a file, except for
the space: `mcsfs1_write` takes the blocks that the file lacks one by one and marks each of them on
the disk. A write that finds some blocks, but fewer than it needs, returns `MCSFS1_ERR_NOSPC` with
these blocks marked and owned by no file. `RunsShort` is this case, and it is the only one in which
a call that fails changes the disk.
-/

namespace Mcsos

namespace Mcsfs1

open FaultyDisk

/-- The call is a write whose arguments are good and whose file is there, and some data blocks are
free, but fewer than the file lacks for its new length. -/
def RunsShort (dev : Blkdev) (s : Disk Block) : Option Mount × Call → Prop
  | (some _, .write name buf len) =>
    ¬(buf = none ∧ len ≠ 0) ∧ len ≤ directBlocks * blockSize ∧
      ∃ i ino, returned ((findDirent dev name).run s) = .ok (i, ino) ∧
        0 < ((volumeOf s.block).freeBlocks dev.blockCount).card ∧
        ((volumeOf s.block).freeBlocks dev.blockCount).card <
          ((volumeOf s.block).file i).missing 0 (neededBlocks len)
  | _ => False

/-- A call that returns an error leaves every block of the disk as it was. -/
def FailsClean (s : Disk Block) (c : Option Mount × Call) : Prop :=
  ∀ e, (step c.1 c.2 s).1 = .status (.error e) →
    ∀ lba, (step c.1 c.2 s).2.block lba = s.block lba

variable {dev : Blkdev} {s : Disk Block} {d d' : ℕ → Block} {name buf : Option Mem} {len : ℕ}

/-! ## Writing a file -/

theorem wp_findDirent_unchanged {C : (ℕ → Block) → Prop} (hdev : dev.Usable) (name : Option Mem)
    (d : ℕ → Block) :
    wp C (findDirent dev name)
      (fun p d' ↦ d' = d ∧ (volumeOf d).Live p.1 ∧ p.2 = ((volumeOf d).entry p.1).ino)
      (fun _ d' ↦ d' = d) d :=
  wp_findDirent hdev (fun _ hi ↦ ⟨rfl, hi.live, rfl⟩) (fun _ ↦ rfl) (fun _ _ ↦ rfl) fun _ ↦ rfl

/-- After the name has been found: the file is written if there is space, and otherwise the disk
stays as it is only if no block is free. -/
theorem meets_writeFile {i : ℕ} (hdev : dev.Usable) (hgood : ¬Faulty dev.fails)
    (hd : Intact dev d) (hlen : len ≤ directBlocks * blockSize) (hlive : (volumeOf d).Live i) :
    Meets (Intact dev) (writeFile dev buf len ((volumeOf d).entry i).ino)
      (fun r d' ↦ (∀ e, r = .error e → d' = d) ↔
        ¬(0 < ((volumeOf d).freeBlocks dev.blockCount).card ∧
          ((volumeOf d).freeBlocks dev.blockCount).card <
            ((volumeOf d).file i).missing 0 (neededBlocks len))) d := by
  refine wp_writeFile hdev hd hlen hlive (fun x d' _ hspace ↦ ?_) (fun used d' _ hout ↦ ?_)
    fun d' hfaulty ↦ absurd hfaulty hgood
  · exact iff_of_true (fun e he ↦ nomatch he) fun h ↦ Nat.not_lt.mpr hspace h.2
  · constructor
    · -- In the end every block is marked, so one that was free before has changed the bitmap.
      rintro hsame ⟨hsome, -⟩
      obtain rfl := hsame .nospc rfl
      rw [hout.full, Finset.card_empty] at hsome
      exact Nat.lt_irrefl 0 hsome
    · intro hfew e _
      refine hout.unchanged (Finset.card_eq_zero.mp (Nat.eq_zero_of_not_pos fun hsome ↦ ?_))
      exact hfew ⟨hsome, hout.short⟩

theorem mcsfs1Write_unchanged_iff {mnt : Mount} (hdev : mnt.dev.Usable)
    (hgood : ¬Faulty mnt.dev.fails) (hs : Always (Intact mnt.dev) s) :
    (∀ e, returned ((mcsfs1Write (some mnt) name buf len).run s) = .error e →
      (finalState ((mcsfs1Write (some mnt) name buf len).run s)).block = s.block) ↔
      ¬RunsShort mnt.dev s (some mnt, .write name buf len) := by
  rw [mcsfs1Write_eq, RunsShort]
  by_cases hargs : buf.isNone ∧ len ≠ 0
  · rw [run_bind_of_error (run_failIf_of hargs)]
    exact iff_of_true (fun _ _ ↦ rfl) fun h ↦ h.1 ⟨Option.isNone_iff_eq_none.mp hargs.1, hargs.2⟩
  rw [run_bind_of_ok (run_failIf_of_not hargs)]
  by_cases hrange : len > directBlocks * blockSize
  · rw [run_bind_of_error (run_failIf_of hrange)]
    exact iff_of_true (fun _ _ ↦ rfl) fun h ↦ Nat.not_lt.mpr h.2.1 hrange
  rw [run_bind_of_ok (run_failIf_of_not hrange)]
  have hlen : len ≤ directBlocks * blockSize := Nat.le_of_not_lt hrange
  have hargs' : ¬(buf = none ∧ len ≠ 0) := by rwa [← Option.isNone_iff_eq_none]
  -- The name is looked up with the bytes that are on the stack in this state.
  have hends := (wp_findDirent_unchanged hdev name s.block).ends s rfl hs.now
  cases hfind : (findDirent mnt.dev name).run s with
  | error e t =>
    rw [hfind] at hends
    rw [run_bind_of_error hfind]
    refine iff_of_true (fun _ _ ↦ hends.2) ?_
    rintro ⟨-, -, i, ino, hok, -⟩
    cases hok
  | ok p t =>
    obtain ⟨i, ino⟩ := p
    rw [hfind] at hends
    obtain ⟨ht, hsame, hlive, hino⟩ := hends
    rw [run_bind_of_ok hfind]
    have hmeets := @meets_writeFile mnt.dev s.block buf len i hdev hgood hs.now hlen hlive
    rw [← hino] at hmeets
    have hwrite := (show Meets _ _ _ t.block by rwa [hsame]).since ht.now
    refine hwrite.2.trans (not_congr ⟨fun h ↦ ⟨hargs', hlen, i, ino, rfl, h⟩, ?_⟩)
    rintro ⟨-, -, i, ino, ⟨⟩, h⟩
    exact h

/-! ## Runs -/

theorem failsClean_iff (hdev : dev.Usable) (hgood : ¬Faulty dev.fails)
    (hs : Always (Intact dev) s) {c : Option Mount × Call} (hc : ∀ m ∈ c.1, m.dev = dev) :
    FailsClean s c ↔ ¬RunsShort dev s c := by
  obtain ⟨mnt, c⟩ := c
  cases mnt with
  | none => cases c <;> exact iff_of_true (fun _ _ _ ↦ rfl) id
  | some m =>
    obtain rfl := hc m rfl
    cases c with
    | create name =>
      refine iff_of_true (fun e he lba ↦ ?_) id
      have hends := ((meets_mcsfs1Create hdev hs.now name).run hs).2
      rw [Ret.status.inj he] at hends
      exact congrFun (hends.unchanged hgood) lba
    | write name buf len =>
      refine Iff.trans ⟨fun h e he ↦ ?_, fun h e he lba ↦ ?_⟩
        (mcsfs1Write_unchanged_iff hdev hgood hs)
      · exact funext (h e (congrArg Ret.status he))
      · exact congrFun (h e (Ret.status.inj he)) lba
    | read name buf cap outLen => exact iff_of_true (fun e he ↦ nomatch he) id
    | unlink name =>
      refine iff_of_true (fun e he lba ↦ ?_) id
      have hends := ((meets_mcsfs1Unlink hdev hs.now name).run hs).2
      rw [Ret.status.inj he] at hends
      exact congrFun (hends.unchanged hgood) lba

/-- **Calls that fail.** On a device that does not fail, after a successful `mcsfs1_format` and any
run of calls, a call with any arguments leaves every block as it was if it returns an error, unless
it is a write that runs short of blocks; and such a write does return an error and change the
disk. -/
theorem failed_call_leaves_disk_iff (hgood : ¬Faulty dev.fails) {s₀ t : Disk Block}
    (hformat : (mcsfs1Format (some dev)).run s = .ok () s₀)
    {es : List ((Option Mount × Call) × Ret)}
    (hrun : Run (fun c ↦ step c.1 c.2) (fun _ c ↦ ∀ m ∈ c.1, m.dev = dev) s₀.fresh es t)
    {c : Option Mount × Call} (hc : ∀ m ∈ c.1, m.dev = dev) :
    FailsClean t c ↔ ¬RunsShort dev t c := by
  obtain ⟨hdev, hformatted⟩ := formatted_of_run hformat
  have halways : Always (Intact dev) t :=
    hrun.invariant (.fresh hformatted.intact) fun u c hu hc ↦ always_step hdev hu hc c.2
  exact failsClean_iff hdev hgood halways hc

/-- A file is created a second time. -/
theorem failed_call_leaves_disk_iff_create : ∃ es t,
    Run (fun c : Option Mount × Call ↦ step c.1 c.2) (fun _ c ↦ ∀ m ∈ c.1, m.dev = plainDev)
      formattedDisk.fresh es t ∧
    (step (some plainMount) (.create (some nameA)) t).1 = .status (.error .exist) ∧
    ∀ lba, (step (some plainMount) (.create (some nameA)) t).2.block lba = t.block lba := by
  have hrun : Run (fun c : Option Mount × Call ↦ step c.1 c.2)
      (fun _ c ↦ ∀ m ∈ c.1, m.dev = plainDev) formattedDisk.fresh _ _ :=
    Run.nil.snoc (some plainMount, .create (some nameA)) dev_of_mem_plainMount
  have hclean (t : Disk Block) (h : FailsClean t (some plainMount, .create (some nameA)))
      (he : (step (some plainMount) (.create (some nameA)) t).1 = .status (.error .exist)) :
      (step (some plainMount) (.create (some nameA)) t).1 = .status (.error .exist) ∧
        ∀ lba, (step (some plainMount) (.create (some nameA)) t).2.block lba = t.block lba :=
    ⟨he, h .exist he⟩
  exact ⟨_, _, hrun, hclean _ ((failed_call_leaves_disk_iff not_faulty_plainDev
    run_mcsfs1Format_plainDev hrun dev_of_mem_plainMount).mpr id) (by decide +kernel)⟩

def nameB : Mem := fun i ↦ if i = 0 then 98 else 0

/-- Two files have one block each, and six of the eight data blocks are free. Writing eight blocks
to the first file fails, and block 10 is marked from then on. -/
theorem write_marks_blocks_and_fails :
    ¬Faulty plainDev.fails ∧ (mcsfs1Format (some plainDev)).run blankDisk = .ok () formattedDisk ∧
    ∃ es t, Run (fun c : Option Mount × Call ↦ step c.1 c.2) (fun _ c ↦ ∀ m ∈ c.1, m.dev = plainDev)
      formattedDisk.fresh es t ∧
    (step (some plainMount) (.write (some nameA) (some fun _ ↦ 0) 4096) t).1 =
      .status (.error .nospc) ∧
    (step (some plainMount) (.write (some nameA) (some fun _ ↦ 0) 4096) t).2.block blockBmapLba ≠
      t.block blockBmapLba := by
  have hrun : Run (fun c : Option Mount × Call ↦ step c.1 c.2)
      (fun _ c ↦ ∀ m ∈ c.1, m.dev = plainDev) formattedDisk.fresh _ _ :=
    (Run.nil.snoc (some plainMount, .create (some nameA)) dev_of_mem_plainMount).snoc
      (some plainMount, .create (some nameB)) dev_of_mem_plainMount
  have hne (a b : Block) (h : bitTest a 10 = true ∧ bitTest b 10 = false) : a ≠ b := by
    rintro rfl
    exact Bool.false_ne_true (h.2.symm.trans h.1)
  exact ⟨not_faulty_plainDev, run_mcsfs1Format_plainDev, _, _, hrun, by decide +kernel,
    hne _ _ (by decide +kernel)⟩

end Mcsfs1

end Mcsos
