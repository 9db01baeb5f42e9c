import Mcsos.Mcsfs1.FileSystem

/-!
# Volumes

What is stored on a disk of the file system: two sets of numbers in use, the inodes, the directory
entries and the data blocks. `Consistent` is the invariant that holds after every single write of
every operation. An operation changes a volume in steps, each of which changes one of its parts; the
lemmas of this file say what each step needs to keep the volume consistent. The order in which the
operations make their steps is what provides it: a block or an inode is in use before anything
points to it, and nothing points to it any more before it is given back.
-/

namespace Mcsos

namespace Mcsfs1

/-- The contents of a disk, decoded. -/
@[ext] structure Volume where
  super : Block
  inodeUsed : ℕ → Bool
  blockUsed : ℕ → Bool
  inode : ℕ → Inode
  entry : ℕ → Dirent
  data : ℕ → Block

namespace Volume

variable (v : Volume)

/-- Entry `i` of the directory is in use. -/
def Live (i : ℕ) : Prop := i < direntCount ∧ (v.entry i).ino ≠ 0

/-- The inode of entry `i`. -/
def file (i : ℕ) : Inode := v.inode (v.entry i).ino

/-- No entry in use has the inode number `n`. -/
def Unlinked (n : ℕ) : Prop := ∀ i, v.Live i → (v.entry i).ino ≠ n

/-! ## Steps -/

def markInode (n : ℕ) (b : Bool) : Volume := { v with inodeUsed := Function.update v.inodeUsed n b }

def markBlock (n : ℕ) (b : Bool) : Volume := { v with blockUsed := Function.update v.blockUsed n b }

def setInode (n : ℕ) (x : Inode) : Volume := { v with inode := Function.update v.inode n x }

def setEntry (i : ℕ) (e : Dirent) : Volume := { v with entry := Function.update v.entry i e }

def setData (n : ℕ) (b : Block) : Volume := { v with data := Function.update v.data n b }

theorem inodeUsed_markInode (n : ℕ) (b : Bool) (m : ℕ) :
    (v.markInode n b).inodeUsed m = if m = n then b else v.inodeUsed m :=
  Function.update_apply v.inodeUsed n b m

theorem blockUsed_markBlock (n : ℕ) (b : Bool) (m : ℕ) :
    (v.markBlock n b).blockUsed m = if m = n then b else v.blockUsed m :=
  Function.update_apply v.blockUsed n b m

theorem inode_setInode (n : ℕ) (x : Inode) (m : ℕ) :
    (v.setInode n x).inode m = if m = n then x else v.inode m :=
  Function.update_apply v.inode n x m

theorem entry_setEntry (i : ℕ) (e : Dirent) (j : ℕ) :
    (v.setEntry i e).entry j = if j = i then e else v.entry j :=
  Function.update_apply v.entry i e j

theorem data_setData (n : ℕ) (b : Block) (m : ℕ) :
    (v.setData n b).data m = if m = n then b else v.data m :=
  Function.update_apply v.data n b m

theorem file_setInode {n i : ℕ} (hi : (v.entry i).ino ≠ n) (x : Inode) :
    (v.setInode n x).file i = v.file i := by
  rw [file, inode_setInode]
  exact if_neg hi

theorem file_setInode_self (i : ℕ) (x : Inode) : (v.setInode (v.entry i).ino x).file i = x := by
  rw [file, inode_setInode]
  exact if_pos rfl

variable {v}

theorem live_setEntry {i j : ℕ} {e : Dirent} (hji : j ≠ i) :
    (v.setEntry i e).Live j ↔ v.Live j := by
  rw [Live, Live, entry_setEntry, if_neg hji]

theorem file_setEntry {i j : ℕ} {e : Dirent} (hji : j ≠ i) :
    (v.setEntry i e).file j = v.file j := by
  rw [file, entry_setEntry, if_neg hji]
  rfl

theorem live_clear {i j : ℕ} : (v.setEntry i (Buf.zero 32)).Live j ↔ j ≠ i ∧ v.Live j := by
  by_cases hji : j = i
  · rw [Live, entry_setEntry, if_pos hji]
    exact ⟨fun hj ↦ absurd (Buf.load_zero 4 0) hj.2, fun hj ↦ absurd hji hj.1⟩
  · rw [live_setEntry hji]
    exact ⟨fun hj ↦ ⟨hji, hj⟩, fun hj ↦ hj.2⟩

/-- More inodes and blocks are marked, and nothing else is different. -/
structure Marked (v v' : Volume) : Prop where
  volume : v' = { v with inodeUsed := v'.inodeUsed, blockUsed := v'.blockUsed }
  inode : ∀ n, v.inodeUsed n = true → v'.inodeUsed n = true
  block : ∀ b, v.blockUsed b = true → v'.blockUsed b = true

theorem Marked.refl (v : Volume) : Marked v v := ⟨rfl, fun _ h ↦ h, fun _ h ↦ h⟩

theorem Marked.trans {v' v'' : Volume} (h : Marked v v') (h' : Marked v' v'') : Marked v v'' := by
  refine ⟨?_, fun n hn ↦ h'.inode n (h.inode n hn), fun b hb ↦ h'.block b (h.block b hb)⟩
  rw [h'.volume, h.volume]

theorem marked_markInode (v : Volume) (n : ℕ) : Marked v (v.markInode n true) :=
  ⟨rfl, fun m hm ↦ by rw [inodeUsed_markInode, hm, ite_self], fun _ h ↦ h⟩

theorem marked_markBlock (v : Volume) (b : ℕ) : Marked v (v.markBlock b true) :=
  ⟨rfl, fun _ h ↦ h, fun a ha ↦ by rw [blockUsed_markBlock, ha, ite_self]⟩

end Volume

/-- An inode has the block `b`. -/
def Inode.Owns (x : Inode) (b : ℕ) : Prop := b ≠ 0 ∧ ∃ k < directBlocks, x.direct k = b

instance (x : Inode) (b : ℕ) : Decidable (x.Owns b) :=
  inferInstanceAs (Decidable (b ≠ 0 ∧ ∃ k < directBlocks, x.direct k = b))

/-- The number of direct blocks that a file of this size must have. -/
def neededBlocks (size : ℕ) : ℕ := max 1 ((size + 511) / 512)

/-- The blocks of an inode are data blocks in use, each of them once. -/
structure OwnsBlocks (blockCount : ℕ) (blockUsed : ℕ → Bool) (x : Inode) : Prop where
  range : ∀ b, x.Owns b → dataStartLba ≤ b ∧ b < blockCount
  used : ∀ b, x.Owns b → blockUsed b = true
  once : ∀ k < directBlocks, ∀ l < directBlocks, x.direct k ≠ 0 → x.direct k = x.direct l → k = l

/-- The inode of a file. -/
structure GoodFile (blockCount : ℕ) (blockUsed : ℕ → Bool) (x : Inode) : Prop
    extends OwnsBlocks blockCount blockUsed x where
  mode : x.mode = modeFile
  size : x.size ≤ directBlocks * blockSize
  needed : ∀ k < neededBlocks x.size, x.direct k ≠ 0

/-- A directory entry of a file. -/
structure GoodEntry (inodeUsed : ℕ → Bool) (e : Dirent) : Prop where
  type : e.type = modeFile
  ino_ge : 2 ≤ e.ino
  ino_le : e.ino ≤ maxInodes
  used : inodeUsed e.ino = true

/-- The superblock that `load_super` accepts. -/
structure SuperOk (blockCount : ℕ) (sb : Block) : Prop where
  magic : Super.magic sb = magic
  version : Super.version sb = version
  blockSize : Super.blockSize sb = blockSize
  blockCount : Super.blockCount sb = blockCount
  inodeCount : Super.inodeCount sb = maxInodes
  inodeBmapLba : Super.inodeBmapLba sb = inodeBmapLba
  blockBmapLba : Super.blockBmapLba sb = blockBmapLba
  inodeTableLba : Super.inodeTableLba sb = inodeTableLba
  rootIno : Super.rootIno sb = rootIno
  rootDirLba : Super.rootDirLba sb = rootDirLba
  dataStartLba : Super.dataStartLba sb = dataStartLba

/-- The structure of a volume of `blockCount` blocks. -/
structure Consistent (blockCount : ℕ) (v : Volume) : Prop where
  super : SuperOk blockCount v.super
  rootUsed : v.inodeUsed rootIno = true
  rootMode : (v.inode rootIno).mode = modeDir
  rootDirect : (v.inode rootIno).direct 0 = rootDirLba
  /-- The blocks before the data blocks are marked as used. -/
  system : ∀ b < dataStartLba, v.blockUsed b = true
  entry : ∀ i, v.Live i → GoodEntry v.inodeUsed (v.entry i)
  /-- No inode has two entries. -/
  linkedOnce : ∀ i j, v.Live i → v.Live j → (v.entry i).ino = (v.entry j).ino → i = j
  file : ∀ i, v.Live i → GoodFile blockCount v.blockUsed (v.file i)
  /-- No block belongs to two files. -/
  disjoint : ∀ i j, v.Live i → v.Live j → i ≠ j → ∀ b, (v.file i).Owns b → ¬(v.file j).Owns b

/-- The files in use are the same. What belongs to no file may be different. -/
structure SameFiles (v v' : Volume) : Prop where
  entry : v'.entry = v.entry
  inode : ∀ i, v.Live i → v'.inode (v.entry i).ino = v.inode (v.entry i).ino
  data : ∀ i, v.Live i → ∀ b, (v.file i).Owns b → v'.data b = v.data b

theorem Volume.Marked.sameFiles {v v' : Volume} (h : v.Marked v') : SameFiles v v' := by
  rw [h.volume]
  exact ⟨rfl, fun _ _ ↦ rfl, fun _ _ _ _ ↦ rfl⟩

variable {bc : ℕ} {v : Volume} {n i : ℕ} {x : Inode} {e : Dirent}

/-- The 32-bit sum does not wrap for the sizes of files. -/
theorem blocksFor_eq {len : ℕ} (h : len ≤ directBlocks * blockSize) :
    blocksFor len = (len + 511) / 512 := by
  rw [directBlocks, blockSize] at h
  rw [blocksFor, blockSize, Nat.mod_eq_of_lt (by omega)]
  rfl

theorem neededBlocks_eq {len : ℕ} (h : len ≤ directBlocks * blockSize) :
    (if blocksFor len = 0 then 1 else blocksFor len) = neededBlocks len := by
  rw [blocksFor_eq h, neededBlocks]
  split_ifs with h0
  · rw [h0]
    rfl
  · exact (max_eq_right (by omega)).symm

theorem neededBlocks_le {len : ℕ} (h : len ≤ directBlocks * blockSize) :
    neededBlocks len ≤ directBlocks := by
  rw [directBlocks, blockSize] at h
  rw [neededBlocks, directBlocks]
  omega

theorem GoodEntry.congr {used used' : ℕ → Bool} (h : GoodEntry used e)
    (hused : used' e.ino = true) : GoodEntry used' e :=
  ⟨h.type, h.ino_ge, h.ino_le, hused⟩

theorem OwnsBlocks.congr {used used' : ℕ → Bool} (h : OwnsBlocks bc used x)
    (hused : ∀ b, x.Owns b → used' b = true) : OwnsBlocks bc used' x :=
  ⟨h.range, hused, h.once⟩

theorem GoodFile.congr {used used' : ℕ → Bool} (h : GoodFile bc used x)
    (hused : ∀ b, x.Owns b → used' b = true) : GoodFile bc used' x :=
  ⟨h.toOwnsBlocks.congr hused, h.mode, h.size, h.needed⟩

namespace Consistent

variable (h : Consistent bc v)
include h

/-! ## Marks -/

/-- The marks of the inodes may change as long as the root and the inodes with an entry stay
marked. -/
theorem setInodeUsed {used : ℕ → Bool} (hroot : used rootIno = true)
    (hentries : ∀ i, v.Live i → used (v.entry i).ino = true) :
    Consistent bc { v with inodeUsed := used } where
  super := h.super
  rootUsed := hroot
  rootMode := h.rootMode
  rootDirect := h.rootDirect
  system := h.system
  entry i hi := (h.entry i hi).congr (hentries i hi)
  linkedOnce := h.linkedOnce
  file := h.file
  disjoint := h.disjoint

/-- The mark of an inode is removed after its entry. -/
theorem unmarkInode (hroot : n ≠ rootIno) (hn : v.Unlinked n) :
    Consistent bc (v.markInode n false) := by
  have hkeep : ∀ m, m ≠ n → v.inodeUsed m = true → (v.markInode n false).inodeUsed m = true :=
    fun m hmn hm ↦ by rw [Volume.inodeUsed_markInode, if_neg hmn, hm]
  change Consistent bc { v with inodeUsed := (v.markInode n false).inodeUsed }
  exact h.setInodeUsed (hkeep _ hroot.symm h.rootUsed) fun i hi ↦
    hkeep _ (hn i hi) (h.entry i hi).used

/-- The marks of the blocks may change as long as the blocks of the system and of the files stay
marked. -/
theorem setBlockUsed {used : ℕ → Bool} (hsystem : ∀ b < dataStartLba, used b = true)
    (hfiles : ∀ i, v.Live i → ∀ b, (v.file i).Owns b → used b = true) :
    Consistent bc { v with blockUsed := used } where
  super := h.super
  rootUsed := h.rootUsed
  rootMode := h.rootMode
  rootDirect := h.rootDirect
  system := hsystem
  entry := h.entry
  linkedOnce := h.linkedOnce
  file i hi := (h.file i hi).congr (hfiles i hi)
  disjoint := h.disjoint

theorem of_marked {v' : Volume} (hv' : v.Marked v') : Consistent bc v' := by
  rw [hv'.volume]
  exact (h.setInodeUsed (hv'.inode _ h.rootUsed) fun i hi ↦ hv'.inode _ (h.entry i hi).used)
    |>.setBlockUsed (fun b hb ↦ hv'.block b (h.system b hb))
      fun i hi b hb ↦ hv'.block b ((h.file i hi).used b hb)

theorem markInode (n : ℕ) : Consistent bc (v.markInode n true) :=
  h.of_marked (v.marked_markInode n)

theorem markBlock (b : ℕ) : Consistent bc (v.markBlock b true) :=
  h.of_marked (v.marked_markBlock b)

theorem not_owns_of_unused {b : ℕ} (hb : v.blockUsed b = false) (hi : v.Live i) :
    ¬(v.file i).Owns b := by
  intro howns
  rw [(h.file i hi).used b howns] at hb
  cases hb

theorem unlinked_of_unused (hn : v.inodeUsed n = false) : v.Unlinked n := by
  rintro i hi rfl
  rw [(h.entry i hi).used] at hn
  cases hn

/-! ## Data -/

theorem setAllData (data : ℕ → Block) : Consistent bc { v with data := data } :=
  ⟨h.super, h.rootUsed, h.rootMode, h.rootDirect, h.system, h.entry, h.linkedOnce, h.file,
    h.disjoint⟩

/-! ## Inodes -/

theorem setInode_unlinked (hroot : n ≠ rootIno) (hn : v.Unlinked n) (x : Inode) :
    Consistent bc (v.setInode n x) := by
  have hfile : ∀ i, v.Live i → (v.setInode n x).file i = v.file i := fun i hi ↦
    v.file_setInode (hn i hi) x
  have hrootInode : (v.setInode n x).inode rootIno = v.inode rootIno := by
    rw [Volume.inode_setInode, if_neg hroot.symm]
  refine ⟨h.super, h.rootUsed, ?_, ?_, h.system, h.entry, h.linkedOnce, ?_, ?_⟩
  · rw [hrootInode, h.rootMode]
  · rw [hrootInode, h.rootDirect]
  · intro i hi
    rw [hfile i hi]
    exact h.file i hi
  · intro i j hi hj hij
    rw [hfile i hi, hfile j hj]
    exact h.disjoint i j hi hj hij

theorem setInode_live (hi : v.Live i) (hx : GoodFile bc v.blockUsed x)
    (hclear : ∀ j, v.Live j → j ≠ i → ∀ b, x.Owns b → ¬(v.file j).Owns b) :
    Consistent bc (v.setInode (v.entry i).ino x) := by
  have hself := v.file_setInode_self i x
  have hother : ∀ j, v.Live j → j ≠ i → (v.setInode (v.entry i).ino x).file j = v.file j :=
    fun j hj hji ↦ v.file_setInode (fun heq ↦ hji (h.linkedOnce j i hj hi heq)) x
  have hrootInode : (v.setInode (v.entry i).ino x).inode rootIno = v.inode rootIno := by
    have hge := (h.entry i hi).ino_ge
    rw [Volume.inode_setInode, if_neg (by rw [rootIno]; omega)]
  refine ⟨h.super, h.rootUsed, ?_, ?_, h.system, h.entry, h.linkedOnce, ?_, ?_⟩
  · rw [hrootInode, h.rootMode]
  · rw [hrootInode, h.rootDirect]
  · intro j hj
    by_cases hji : j = i
    · rw [hji, hself]
      exact hx
    · rw [hother j hj hji]
      exact h.file j hj
  · intro j k hj hk hjk b
    by_cases hji : j = i
    · have hki : k ≠ i := fun heq ↦ hjk (hji.trans heq.symm)
      rw [hji, hself, hother k hk hki]
      exact hclear k hk hki b
    · by_cases hki : k = i
      · rw [hki, hself, hother j hj hji]
        exact fun hb hx' ↦ hclear j hj hji b hx' hb
      · rw [hother j hj hji, hother k hk hki]
        exact h.disjoint j k hj hk hjk b

/-! ## Entries -/

/-- An entry is cleared before what it points to is given back. -/
theorem clearEntry (i : ℕ) : Consistent bc (v.setEntry i (Buf.zero 32)) := by
  have hentry : ∀ j, j ≠ i → (v.setEntry i (Buf.zero 32)).entry j = v.entry j := fun j hji ↦ by
    rw [Volume.entry_setEntry, if_neg hji]
  refine ⟨h.super, h.rootUsed, h.rootMode, h.rootDirect, h.system, ?_, ?_, ?_, ?_⟩
  · intro j hj
    obtain ⟨hji, hj⟩ := Volume.live_clear.mp hj
    rw [hentry j hji]
    exact h.entry j hj
  · intro j k hj hk
    obtain ⟨hji, hj⟩ := Volume.live_clear.mp hj
    obtain ⟨hki, hk⟩ := Volume.live_clear.mp hk
    rw [hentry j hji, hentry k hki]
    exact h.linkedOnce j k hj hk
  · intro j hj
    obtain ⟨hji, hj⟩ := Volume.live_clear.mp hj
    rw [Volume.file_setEntry hji]
    exact h.file j hj
  · intro j k hj hk hjk
    obtain ⟨hji, hj⟩ := Volume.live_clear.mp hj
    obtain ⟨hki, hk⟩ := Volume.live_clear.mp hk
    rw [Volume.file_setEntry hji, Volume.file_setEntry hki]
    exact h.disjoint j k hj hk hjk

theorem unlinked_clear (hi : v.Live i) :
    (v.setEntry i (Buf.zero 32)).Unlinked (v.entry i).ino := by
  intro j hj
  obtain ⟨hji, hj⟩ := Volume.live_clear.mp hj
  rw [Volume.entry_setEntry, if_neg hji]
  exact fun heq ↦ hji (h.linkedOnce j i hj hi heq)

/-- An entry is filled after the inode it points to. -/
theorem addEntry (he : GoodEntry v.inodeUsed e) (hn : v.Unlinked e.ino)
    (hx : GoodFile bc v.blockUsed (v.inode e.ino))
    (hclear : ∀ j, v.Live j → ∀ b, (v.inode e.ino).Owns b → ¬(v.file j).Owns b)
    (i : ℕ) : Consistent bc (v.setEntry i e) := by
  have hlive : ∀ j, (v.setEntry i e).Live j → j ≠ i → v.Live j := fun j hj hji ↦
    (Volume.live_setEntry hji).mp hj
  have hself : (v.setEntry i e).entry i = e := by rw [Volume.entry_setEntry, if_pos rfl]
  have hother : ∀ j, j ≠ i → (v.setEntry i e).entry j = v.entry j := fun j hji ↦ by
    rw [Volume.entry_setEntry, if_neg hji]
  have hfileSelf : (v.setEntry i e).file i = v.inode e.ino := by
    rw [Volume.file, hself]
    rfl
  have hfileOther : ∀ j, j ≠ i → (v.setEntry i e).file j = v.file j := fun j hji ↦
    Volume.file_setEntry hji
  refine ⟨h.super, h.rootUsed, h.rootMode, h.rootDirect, h.system, ?_, ?_, ?_, ?_⟩
  · intro j hj
    by_cases hji : j = i
    · rw [hji, hself]
      exact he
    · rw [hother j hji]
      exact h.entry j (hlive j hj hji)
  · intro j k hj hk heq
    by_cases hji : j = i <;> by_cases hki : k = i
    · rw [hji, hki]
    · rw [hji, hself, hother k hki] at heq
      exact absurd heq.symm (hn k (hlive k hk hki))
    · rw [hki, hself, hother j hji] at heq
      exact absurd heq (hn j (hlive j hj hji))
    · rw [hother j hji, hother k hki] at heq
      exact h.linkedOnce j k (hlive j hj hji) (hlive k hk hki) heq
  · intro j hj
    by_cases hji : j = i
    · rw [hji, hfileSelf]
      exact hx
    · rw [hfileOther j hji]
      exact h.file j (hlive j hj hji)
  · intro j k hj hk hjk b
    by_cases hji : j = i
    · have hki : k ≠ i := fun heq ↦ hjk (hji.trans heq.symm)
      rw [hji, hfileSelf, hfileOther k hki]
      exact hclear k (hlive k hk hki) b
    · by_cases hki : k = i
      · rw [hki, hfileSelf, hfileOther j hji]
        exact fun hb hb' ↦ hclear j (hlive j hj hji) b hb' hb
      · rw [hfileOther j hji, hfileOther k hki]
        exact h.disjoint j k (hlive j hj hji) (hlive k hk hki) hjk b

end Consistent

end Mcsfs1

end Mcsos
