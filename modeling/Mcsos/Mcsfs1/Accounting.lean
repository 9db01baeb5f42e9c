import Mcsos.Mcsfs1.Consistency

/-!
# Space accounting

The marks in the two bitmaps, the entries of the directory and the blocks of the inodes are updated
by four functions independently of each other. `Volume.Exact` says that they agree: the marked
inodes are those of the system and of the entries in use, and the marked blocks are those of the
system and of the inodes of these entries. `mcsfs1_format` establishes it, and every operation that
succeeds keeps it. A file that shrinks keeps its blocks, so they stay in the inode as well as in the
bitmap, and the file takes them up again when it grows.

For each operation there are two lemmas on sets, of the inode numbers with an entry (`Linked`) and
of the blocks that belong to a file (`Owned`). They say how the operation changes the set; the marks
change in the same way by the definition of the operation.
-/

namespace Mcsos

namespace Mcsfs1

open FaultyDisk

namespace Volume

variable (v : Volume)

/-- An entry in use has the inode number `n`. -/
def Linked (n : ℕ) : Prop := ∃ i, v.Live i ∧ (v.entry i).ino = n

def Owned (b : ℕ) : Prop := ∃ i, v.Live i ∧ (v.file i).Owns b

/-- The marks are those of the system and of the files. -/
structure Exact : Prop where
  inodes : ∀ n, v.inodeUsed n = true ↔ n = 0 ∨ n = rootIno ∨ v.Linked n
  blocks : ∀ b, v.blockUsed b = true ↔ b < dataStartLba ∨ v.Owned b

end Volume

variable {bc : ℕ} {v v' : Volume} {dev : Blkdev} {d : ℕ → Block}

/-! ## `mcsfs1_format` -/

theorem exact_format (hempty : ∀ i, ¬v.Live i) : (v.format dev).Exact := by
  have hlinked (n : ℕ) : ¬(v.format dev).Linked n := fun ⟨i, hi, _⟩ ↦ hempty i hi
  have howned (b : ℕ) : ¬(v.format dev).Owned b := fun ⟨i, hi, _⟩ ↦ hempty i hi
  refine ⟨fun n ↦ ?_, fun b ↦ ?_⟩
  · change bitTest formatIb n = true ↔ _
    rw [bitTest_formatIb, decide_eq_true_iff, or_iff_left (hlinked n)]
  · change bitTest formatBb b = true ↔ _
    rw [bitTest_formatBb, decide_eq_true_iff, or_iff_left (howned b)]

/-! ## `mcsfs1_create` -/

section Create

variable {slot n b : ℕ} {e : Dirent} (hslot : slot < direntCount) (hfree : ¬v.Live slot)
  (hino : e.ino = n) (hn : n ≠ 0)
include hslot hfree hino hn

theorem live_create {i : ℕ} : (v.create slot n b e).Live i ↔ i = slot ∨ v.Live i := by
  by_cases hi : i = slot
  · subst hi
    refine iff_of_true ⟨hslot, ?_⟩ (.inl rfl)
    rwa [Volume.create, Volume.entry_setEntry, if_pos rfl, hino]
  · rw [or_iff_right hi]
    exact Volume.live_setEntry hi

theorem linked_create {m : ℕ} : (v.create slot n b e).Linked m ↔ m = n ∨ v.Linked m := by
  have hself : ((v.create slot n b e).entry slot).ino = n := by
    rw [Volume.create, Volume.entry_setEntry, if_pos rfl, hino]
  have hother (i : ℕ) (hi : v.Live i) : (v.create slot n b e).entry i = v.entry i := by
    have hne : i ≠ slot := fun heq ↦ hfree (heq ▸ hi)
    rw [Volume.create, Volume.entry_setEntry, if_neg hne]
    rfl
  constructor
  · rintro ⟨i, hi, rfl⟩
    obtain rfl | hi := (live_create hslot hfree hino hn).mp hi
    · exact .inl hself
    · exact .inr ⟨i, hi, by rw [hother i hi]⟩
  · rintro (rfl | ⟨i, hi, rfl⟩)
    · exact ⟨slot, (live_create hslot hfree hino hn).mpr (.inl rfl), hself⟩
    · exact ⟨i, (live_create hslot hfree hino hn).mpr (.inr hi), by rw [hother i hi]⟩

theorem owned_create (hunlinked : v.Unlinked n) (hb : b ≠ 0) (hlt : b < 2 ^ 32) {a : ℕ} :
    (v.create slot n b e).Owned a ↔ a = b ∨ v.Owned a := by
  have hself : (v.create slot n b e).file slot = Inode.make modeFile 0 b := by
    rw [Volume.create, Volume.file, Volume.entry_setEntry, if_pos rfl, hino]
    exact (Volume.inode_setInode _ n _ n).trans (if_pos rfl)
  have hother (i : ℕ) (hi : v.Live i) : (v.create slot n b e).file i = v.file i := by
    have hne : i ≠ slot := fun heq ↦ hfree (heq ▸ hi)
    rw [Volume.create, Volume.file_setEntry hne]
    exact Volume.file_setInode _ (hunlinked i hi) _
  constructor
  · rintro ⟨i, hi, hown⟩
    obtain rfl | hi := (live_create hslot hfree hino hn).mp hi
    · -- The new inode has one block.
      rw [hself] at hown
      exact .inl (eq_of_owns_make hlt hown)
    · rw [hother i hi] at hown
      exact .inr ⟨i, hi, hown⟩
  · rintro (rfl | ⟨i, hi, hown⟩)
    · refine ⟨slot, (live_create hslot hfree hino hn).mpr (.inl rfl), ?_⟩
      rw [hself]
      exact ⟨hb, 0, by decide, by rw [Inode.direct_make _ _ hlt (by decide), if_pos rfl]⟩
    · refine ⟨i, (live_create hslot hfree hino hn).mpr (.inr hi), ?_⟩
      rwa [hother i hi]

end Create

theorem Volume.Exact.create (h : v.Exact) (hv : Consistent bc v) (hbc : bc ≤ 4096)
    {slot n b : ℕ} {e : Dirent} (hslot : slot < direntCount) (hfree : ¬v.Live slot)
    (hn : FreeInode v n) (hb : FreeBlock bc v b) (hino : e.ino = n) :
    (v.create slot n b e).Exact := by
  have h2 := hn.two_le
  have hge := hb.start_le
  have hlt := hb.lt_count
  rw [dataStartLba] at hge
  have hn0 : n ≠ 0 := by omega
  refine ⟨fun m ↦ ?_, fun a ↦ ?_⟩
  · rw [linked_create hslot hfree hino hn0]
    change (v.markInode n true).inodeUsed m = true ↔ _
    rw [Volume.inodeUsed_markInode]
    by_cases hm : m = n
    · simp [hm]
    · rw [if_neg hm, or_iff_right hm]
      exact h.inodes m
  · rw [owned_create hslot hfree hino hn0 (hv.unlinked_of_unused hn.unused) (by omega) (by omega)]
    change (v.markBlock b true).blockUsed a = true ↔ _
    rw [Volume.blockUsed_markBlock]
    by_cases ha : a = b
    · simp [ha]
    · rw [if_neg ha, or_iff_right ha]
      exact h.blocks a

/-! ## `mcsfs1_unlink` -/

section Unlink

variable {i : ℕ} (hv : Consistent bc v) (hi : v.Live i)
include hv hi

theorem linked_unlink {m : ℕ} : (v.unlink i).Linked m ↔ m ≠ (v.entry i).ino ∧ v.Linked m := by
  have hother (j : ℕ) (hj : j ≠ i) : (v.unlink i).entry j = v.entry j := by
    change (v.setEntry i (Buf.zero 32)).entry j = v.entry j
    rw [Volume.entry_setEntry, if_neg hj]
  constructor
  · rintro ⟨j, hj, rfl⟩
    obtain ⟨hji, hj⟩ := Volume.live_clear.mp hj
    rw [hother j hji]
    -- No other entry has the number, so that its mark may go.
    exact ⟨fun heq ↦ hji (hv.linkedOnce j i hj hi heq), j, hj, rfl⟩
  · rintro ⟨hm, j, hj, rfl⟩
    have hji : j ≠ i := fun heq ↦ hm (by rw [heq])
    exact ⟨j, Volume.live_clear.mpr ⟨hji, hj⟩, by rw [hother j hji]⟩

theorem owned_unlink {a : ℕ} : (v.unlink i).Owned a ↔ ¬(v.file i).Owns a ∧ v.Owned a := by
  have hother (j : ℕ) (hj : v.Live j) (hji : j ≠ i) : (v.unlink i).file j = v.file j := by
    have hino : ((v.setEntry i (Buf.zero 32)).entry j).ino ≠ (v.entry i).ino := by
      rw [Volume.entry_setEntry, if_neg hji]
      exact fun heq ↦ hji (hv.linkedOnce j i hj hi heq)
    refine (Volume.file_setInode _ hino _).trans ?_
    exact Volume.file_setEntry hji
  constructor
  · rintro ⟨j, hj, hown⟩
    obtain ⟨hji, hj⟩ := Volume.live_clear.mp hj
    rw [hother j hj hji] at hown
    exact ⟨fun hfile ↦ hv.disjoint i j hi hj hji.symm a hfile hown, j, hj, hown⟩
  · rintro ⟨ha, j, hj, hown⟩
    have hji : j ≠ i := by
      rintro rfl
      exact ha hown
    refine ⟨j, Volume.live_clear.mpr ⟨hji, hj⟩, ?_⟩
    rwa [hother j hj hji]

end Unlink

theorem Volume.Exact.unlink (h : v.Exact) (hv : Consistent bc v) {i : ℕ} (hi : v.Live i) :
    (v.unlink i).Exact := by
  have hge := (hv.entry i hi).ino_ge
  refine ⟨fun m ↦ ?_, fun a ↦ ?_⟩
  · rw [linked_unlink hv hi]
    change (v.markInode (v.entry i).ino false).inodeUsed m = true ↔ _
    rw [Volume.inodeUsed_markInode, rootIno]
    by_cases hm : m = (v.entry i).ino
    · rw [if_pos hm]
      refine iff_of_false Bool.false_ne_true ?_
      rintro (hzero | hroot | ⟨hne, -⟩)
      · omega
      · omega
      · exact hne hm
    · rw [if_neg hm, and_iff_right hm]
      exact h.inodes m
  · rw [owned_unlink hv hi]
    change (v.blockUsed a && !decide ((v.file i).Owns a)) = true ↔ _
    by_cases ha : (v.file i).Owns a
    · have hdata := ((hv.file i hi).range a ha).1
      rw [decide_eq_true ha, Bool.not_true, Bool.and_false]
      refine iff_of_false Bool.false_ne_true ?_
      rintro (hsystem | ⟨hne, -⟩)
      · omega
      · exact hne ha
    · rw [decide_eq_false ha, Bool.not_false, Bool.and_true, and_iff_right ha]
      exact h.blocks a

/-! ## `mcsfs1_write` -/

theorem Volume.Exact.write (h : v.Exact) (hv : Consistent bc v) {i len : ℕ} {buf : Mem}
    {x : Inode} (hi : v.Live i) (hx : Wrote v i buf len x v') : v'.Exact := by
  have hvol := hx.volume
  have hentry : v'.entry = v.entry := by rw [hvol]; rfl
  have hlive (j : ℕ) : v'.Live j ↔ v.Live j := by rw [Volume.Live, Volume.Live, hentry]
  have hself : v'.file i = x := by
    rw [hvol]
    exact Volume.file_setInode_self _ i x
  have hother (j : ℕ) (hj : v.Live j) (hji : j ≠ i) : v'.file j = v.file j := by
    rw [hvol]
    exact Volume.file_setInode _ (fun heq ↦ hji (hv.linkedOnce j i hj hi heq)) x
  have howned (a : ℕ) : v'.Owned a ↔ x.Owns a ∨ v.Owned a := by
    constructor
    · rintro ⟨j, hj, hown⟩
      rw [hlive] at hj
      by_cases hji : j = i
      · rw [hji, hself] at hown
        exact .inl hown
      · rw [hother j hj hji] at hown
        exact .inr ⟨j, hj, hown⟩
    · rintro (hown | ⟨j, hj, hown⟩)
      · exact ⟨i, (hlive i).mpr hi, by rwa [hself]⟩
      · refine ⟨j, (hlive j).mpr hj, ?_⟩
        -- The blocks that the file had before are still among its blocks.
        by_cases hji : j = i
        · rw [hji, hself]
          exact hx.kept a (hji ▸ hown)
        · rwa [hother j hj hji]
  refine ⟨fun m ↦ ?_, fun a ↦ ?_⟩
  · have hused : v'.inodeUsed = v.inodeUsed := by rw [hvol]; rfl
    have hlinked : v'.Linked m ↔ v.Linked m := by
      simp only [Volume.Linked, hlive, hentry]
    rw [hused, hlinked]
    exact h.inodes m
  · have hused : v'.blockUsed a = (v.blockUsed a || decide (x.Owns a)) := by rw [hvol]; rfl
    rw [hused, howned, Bool.or_eq_true, decide_eq_true_iff, h.blocks]
    tauto

/-! ## Operations that succeed -/

section Ends

variable {name : Option Mem} {r : Except Err Unit} {d' : ℕ → Block} (hr : ∀ e, r ≠ .error e)
  (hd : Intact dev d) (hexact : (volumeOf d).Exact)
include hr hd hexact

theorem CreateEnds.exact (h : CreateEnds dev name d r d') (hdev : dev.Usable) :
    (volumeOf d').Exact := by
  cases h with
  | ok _ _ hslot hfree hn hb hd' =>
    have hle := hn.le_max
    rw [maxInodes] at hle
    rw [hd']
    exact hexact.create hd hdev.le_max hslot hfree hn hb (Dirent.ino_make (by omega))
  | name | exist | nospc | io => exact absurd rfl (hr _)

theorem WriteEnds.exact {buf : Option Mem} {len : ℕ} (h : WriteEnds dev name buf len d r d') :
    (volumeOf d').Exact := by
  cases h with
  | ok hi hx => exact hexact.write hd hi.live hx
  | args | range | name | noent | nospc | io => exact absurd rfl (hr _)

theorem UnlinkEnds.exact (h : UnlinkEnds dev name d r d') : (volumeOf d').Exact := by
  cases h with
  | ok hi hd' =>
    rw [hd']
    exact hexact.unlink hd hi.live
  | name | noent | io => exact absurd rfl (hr _)

end Ends

/-! ## Runs -/

/-- The disk holds a consistent volume whose marks are exact. -/
def Accounted (dev : Blkdev) (s : Disk Block) : Prop :=
  Always (Intact dev) s ∧ (volumeOf s.block).Exact

/-- A call with a mount of the device; if it is one of the three that change the disk, it returns
`MCSFS1_ERR_OK`. -/
def Succeeds (dev : Blkdev) (s : Disk Block) (c : Option Mount × Call) : Prop :=
  (∀ m ∈ c.1, m.dev = dev) ∧ ∀ e, (step c.1 c.2 s).1 ≠ .status (.error e)

theorem Accounted.step {s : Disk Block} (h : Accounted dev s) (hdev : dev.Usable)
    {c : Option Mount × Call} (hc : Succeeds dev s c) :
    Accounted dev (Mcsfs1.step c.1 c.2 s).2 := by
  obtain ⟨halways, hexact⟩ := h
  have hd := halways.now
  refine ⟨always_step hdev halways hc.1 c.2, ?_⟩
  obtain ⟨mnt, c⟩ := c
  cases mnt with
  | none =>
    cases c with
    | read name buf cap outLen => exact hexact
    | create name => exact absurd rfl (hc.2 .inval)
    | write name buf len => exact absurd rfl (hc.2 .inval)
    | unlink name => exact absurd rfl (hc.2 .inval)
  | some m =>
    obtain rfl := hc.1 m rfl
    cases c with
    | create name =>
      exact ((meets_mcsfs1Create hdev hd name).run halways).2.exact
        (fun e he ↦ hc.2 e (congrArg Ret.status he)) hd hexact hdev
    | write name buf len =>
      exact ((meets_mcsfs1Write hdev hd name buf len).run halways).2.exact
        (fun e he ↦ hc.2 e (congrArg Ret.status he)) hd hexact
    | read name buf cap outLen =>
      have hsame := ((meets_mcsfs1Read hdev hd name buf cap outLen).run halways).2.unchanged
      exact hsame ▸ hexact
    | unlink name =>
      exact ((meets_mcsfs1Unlink hdev hd name).run halways).2.exact
        (fun e he ↦ hc.2 e (congrArg Ret.status he)) hd hexact

theorem eq_of_bitTest_eq {a b : Block} (h : ∀ n, bitTest a n = bitTest b n) : a = b :=
  Buf.ext (Bitmap.ext_of_test h)

theorem Volume.Exact.bitmaps_eq (h : (volumeOf d).Exact) (hempty : ∀ i, ¬(volumeOf d).Live i) :
    d inodeBmapLba = formatIb ∧ d blockBmapLba = formatBb := by
  have hlinked (n : ℕ) : ¬(volumeOf d).Linked n := fun ⟨i, hi, _⟩ ↦ hempty i hi
  have howned (b : ℕ) : ¬(volumeOf d).Owned b := fun ⟨i, hi, _⟩ ↦ hempty i hi
  refine ⟨eq_of_bitTest_eq fun n ↦ ?_, eq_of_bitTest_eq fun b ↦ ?_⟩
  · have hbit := h.inodes n
    rw [or_iff_left (hlinked n)] at hbit
    rw [bitTest_formatIb, ← Bool.coe_iff_coe, decide_eq_true_iff]
    exact hbit
  · have hbit := h.blocks b
    rw [or_iff_left (howned b)] at hbit
    rw [bitTest_formatBb, ← Bool.coe_iff_coe, decide_eq_true_iff]
    exact hbit

/-- **Exact space accounting.** After a successful `mcsfs1_format`, in every run whose creates,
writes and unlinks succeed, a bit of the inode bitmap is set exactly for the numbers 0 and 1 and the
inode numbers of the entries in use, and a bit of the block bitmap exactly for the blocks before the
data blocks and the direct blocks of these inodes. When no entry is in use, both bitmap blocks are
the ones that `mcsfs1_format` wrote. -/
theorem bitmaps_account_for_files {s s₀ t : Disk Block}
    (hformat : (mcsfs1Format (some dev)).run s = .ok () s₀)
    {es : List ((Option Mount × Call) × Ret)}
    (hrun : Run (fun c ↦ step c.1 c.2) (Succeeds dev) s₀.fresh es t) :
    (∀ n, bitTest (t.block inodeBmapLba) n = true ↔
      n = 0 ∨ n = rootIno ∨ ∃ i, (volumeOf t.block).Live i ∧ ((volumeOf t.block).entry i).ino = n) ∧
    (∀ b, bitTest (t.block blockBmapLba) b = true ↔
      b < dataStartLba ∨ ∃ i, (volumeOf t.block).Live i ∧ ((volumeOf t.block).file i).Owns b) ∧
    ((∀ i, ¬(volumeOf t.block).Live i) → t.block inodeBmapLba = s₀.block inodeBmapLba ∧
      t.block blockBmapLba = s₀.block blockBmapLba) := by
  obtain ⟨hdev, v, hempty, hvol⟩ := volumeOf_of_run_format hformat
  have hstart : Accounted dev s₀.fresh := by
    refine ⟨.fresh (formatted_of_volumeOf hdev hempty hvol).intact, ?_⟩
    change (volumeOf s₀.block).Exact
    rw [hvol]
    exact exact_format hempty
  have hfresh : ∀ i, ¬(volumeOf s₀.block).Live i := by
    rw [hvol]
    exact hempty
  obtain ⟨-, hexact⟩ := hrun.invariant hstart fun u c hu hc ↦ hu.step hdev hc
  refine ⟨hexact.inodes, hexact.blocks, fun hnone ↦ ?_⟩
  -- The marks are exact at the start as well, and there are no files then either.
  obtain ⟨hib, hbb⟩ := hexact.bitmaps_eq hnone
  obtain ⟨hib₀, hbb₀⟩ := hstart.2.bitmaps_eq hfresh
  exact ⟨hib.trans hib₀.symm, hbb.trans hbb₀.symm⟩

/-- A file is created, gets three bytes and is removed. -/
theorem bitmaps_account_for_files_removed : ∃ es t,
    Run (fun c : Option Mount × Call ↦ step c.1 c.2) (Succeeds plainDev) formattedDisk.fresh es t ∧
    es.map (·.1.2) = [.create (some nameA), .write (some nameA) (some fun i ↦ .ofNat i) 3,
      .unlink (some nameA)] ∧
    t.block inodeBmapLba = formattedDisk.block inodeBmapLba ∧
    t.block blockBmapLba = formattedDisk.block blockBmapLba := by
  have hsucceeds (c : Call) (s : Disk Block)
      (h : (step (some plainMount) c s).1 = .status (.ok ())) :
      Succeeds plainDev s (some plainMount, c) :=
    ⟨dev_of_mem_plainMount, fun e he ↦ nomatch h.symm.trans he⟩
  have hrun : Run (fun c : Option Mount × Call ↦ step c.1 c.2) (Succeeds plainDev)
      formattedDisk.fresh _ _ :=
    ((Run.nil.snoc (some plainMount, .create (some nameA)) (hsucceeds _ _ (by decide +kernel))).snoc
      (some plainMount, .write (some nameA) (some fun i ↦ .ofNat i) 3)
        (hsucceeds _ _ (by decide +kernel))).snoc
      (some plainMount, .unlink (some nameA)) (hsucceeds _ _ (by decide +kernel))
  have hempty (v : Volume) (h : ∀ i < direntCount, (v.entry i).ino = 0) (i : ℕ) : ¬v.Live i :=
    fun hi ↦ hi.2 (h i hi.1)
  exact ⟨_, _, hrun, rfl, (bitmaps_account_for_files run_mcsfs1Format_plainDev hrun).2.2
    (hempty _ (by decide +kernel))⟩

end Mcsfs1

end Mcsos
