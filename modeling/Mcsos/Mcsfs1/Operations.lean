import Mcsos.Mcsfs1.Access

/-!
# The operations

What `mcsfs1_create`, `mcsfs1_unlink` and `mcsfs1_read` may return, and the volume they leave in
each case: `CreateEnds`, `UnlinkEnds` and `ReadEnds`. Each of them keeps the volume consistent after
every single write.
-/

namespace Mcsos

namespace Mcsfs1

open FaultyDisk

variable {bc : ℕ} {v : Volume} {n b i : ℕ} {d : ℕ → Block}

/-! ## `mcsfs1_create` -/

/-- The volume with a new file of no bytes in the given slot, inode and block. -/
def Volume.create (v : Volume) (slot n b : ℕ) (e : Dirent) : Volume :=
  (((v.markInode n true).markBlock b true).setInode n (Inode.make modeFile 0 b)).setEntry slot e

theorem Volume.file_create {slot : ℕ} {e : Dirent} (hino : e.ino = n) :
    (v.create slot n b e).file slot = Inode.make modeFile 0 b := by
  rw [file, create, entry_setEntry, if_pos rfl, hino]
  exact Function.update_self n _ v.inode

theorem eq_of_owns_make (hb : b < 2 ^ 32) {a : ℕ} (ha : (Inode.make modeFile 0 b).Owns a) :
    a = b := by
  obtain ⟨ha0, k, hk, rfl⟩ := ha
  rw [Inode.direct_make modeFile 0 hb hk] at ha0 ⊢
  split_ifs with h0
  · rfl
  · rw [if_neg h0] at ha0
    exact absurd rfl ha0

theorem goodFile_make {used : ℕ → Bool} (hb : dataStartLba ≤ b) (hlt : b < bc) (hbc : bc ≤ 4096)
    (hused : used b = true) : GoodFile bc used (Inode.make modeFile 0 b) := by
  have hdirect : ∀ k < directBlocks, (Inode.make modeFile 0 b).direct k = if k = 0 then b else 0 :=
    fun k hk ↦ Inode.direct_make modeFile 0 (by omega) hk
  have howns : ∀ a, (Inode.make modeFile 0 b).Owns a → a = b := fun a ha ↦
    eq_of_owns_make (by omega) ha
  have hsize : (Inode.make modeFile 0 b).size = 0 := Inode.size_make modeFile b (by decide)
  refine ⟨⟨?_, ?_, ?_⟩, Inode.mode_make 0 b (by decide), ?_, ?_⟩
  · intro a ha
    rw [howns a ha]
    exact ⟨hb, hlt⟩
  · intro a ha
    rwa [howns a ha]
  · intro k hk l hl hne heq
    rw [hdirect k hk] at hne heq
    rw [hdirect l hl] at heq
    rw [dataStartLba] at hb
    split_ifs at hne heq <;> omega
  · rw [hsize]
    exact Nat.zero_le _
  · intro k hk
    have h0 : k = 0 := by
      rw [hsize, neededBlocks] at hk
      omega
    rw [dataStartLba] at hb
    rw [h0, hdirect 0 (by decide), if_pos rfl]
    omega

namespace Consistent

/-- The new inode is written before it has an entry. -/
theorem createInode (h : Consistent bc v) (hn : FreeInode v n) (b : ℕ) :
    Consistent bc (((v.markInode n true).markBlock b true).setInode n
      (Inode.make modeFile 0 b)) := by
  have hroot : n ≠ rootIno := by
    have h2 := hn.two_le
    rw [rootIno]
    omega
  exact ((h.markInode n).markBlock b).setInode_unlinked hroot (h.unlinked_of_unused hn.unused) _

theorem sameFiles_createInode (h : Consistent bc v) (hn : FreeInode v n) (b : ℕ) :
    SameFiles v (((v.markInode n true).markBlock b true).setInode n (Inode.make modeFile 0 b)) where
  entry := rfl
  inode i hi := Function.update_of_ne (h.unlinked_of_unused hn.unused i hi) _ v.inode
  data _ _ _ _ := rfl

theorem create (h : Consistent bc v) (hn : FreeInode v n) (hb : FreeBlock bc v b)
    (hbc : bc ≤ 4096) {e : Dirent} (hino : e.ino = n) (htype : e.type = modeFile) (slot : ℕ) :
    Consistent bc (v.create slot n b e) := by
  have hlt := hb.lt_count
  have hinode : (((v.markInode n true).markBlock b true).setInode n
      (Inode.make modeFile 0 b)).inode e.ino = Inode.make modeFile 0 b := by
    rw [Volume.inode_setInode, if_pos hino]
  have hunlinked := h.unlinked_of_unused hn.unused
  have hgood : GoodFile bc (v.markBlock b true).blockUsed (Inode.make modeFile 0 b) :=
    goodFile_make hb.start_le hlt hbc (by rw [Volume.blockUsed_markBlock, if_pos rfl])
  refine (h.createInode hn b).addEntry ⟨htype, ?_, ?_, ?_⟩ ?_ ?_ ?_ slot
  · rw [hino]
    exact hn.two_le
  · rw [hino]
    exact hn.le_max
  · rw [hino]
    exact Function.update_self n true v.inodeUsed
  · rw [hino]
    exact hunlinked
  · rw [hinode]
    exact hgood
  · intro j hj a ha hfile
    rw [hinode] at ha
    rw [Volume.file_setInode ((v.markInode n true).markBlock b true) (hunlinked j hj),
      eq_of_owns_make (by omega) ha] at hfile
    exact h.not_owns_of_unused hb.unused hj hfile

end Consistent

/-- How `mcsfs1_create` may end. -/
inductive CreateEnds (dev : Blkdev) (name : Option Mem) (d : ℕ → Block) :
    Except Err Unit → (ℕ → Block) → Prop
  | ok {nameLen slot n b : ℕ} {d' : ℕ → Block} (hname : validName name = .ok nameLen)
    (hfound : NotFound d name ∨ Faulty dev.fails) (hslot : slot < direntCount)
    (hfree : ¬(volumeOf d).Live slot) (hn : FreeInode (volumeOf d) n)
    (hb : FreeBlock dev.blockCount (volumeOf d) b)
    (hd' : volumeOf d' =
      (volumeOf d).create slot n b (Dirent.make n modeFile (bytesAt name) nameLen)) :
    CreateEnds dev name d (.ok ()) d'
  | name {e : Err} (h : validName name = .error e) : CreateEnds dev name d (.error e) d
  | exist {i : ℕ} (h : Found d name i) : CreateEnds dev name d (.error .exist) d
  | nospc {nameLen : ℕ} (hname : validName name = .ok nameLen)
    (hfound : NotFound d name ∨ Faulty dev.fails) (hfull : ¬(volumeOf d).HasRoom dev.blockCount) :
    CreateEnds dev name d (.error .nospc) d
  | io {d' : ℕ → Block} (h : Faulty dev.fails) : CreateEnds dev name d (.error .io) d'

/-- A creation that fails while the device does not leaves the disk as it is. -/
theorem CreateEnds.unchanged {dev : Blkdev} {name : Option Mem} {e : Err} {d' : ℕ → Block}
    (h : CreateEnds dev name d (.error e) d') (hgood : ¬Faulty dev.fails) : d' = d := by
  cases h with
  | name | exist | nospc => rfl
  | io hfaulty => exact absurd hfaulty hgood

/-- The slot that `mcsfs1_create` takes. -/
def firstFree (dir : Block) : Option ℕ :=
  (List.range direntCount).find? fun i ↦ (direntAt dir i).ino == 0

theorem not_live_of_firstFree {slot : ℕ} (h : firstFree (d rootDirLba) = some slot) :
    slot < direntCount ∧ ¬(volumeOf d).Live slot := by
  rw [firstFree, List.find?_range_eq_some, beq_iff_eq, List.mem_range] at h
  exact ⟨h.2.1, fun hlive ↦ hlive.2 h.1⟩

theorem not_hasSlot_of_firstFree (h : firstFree (d rootDirLba) = none) :
    ¬∃ i < direntCount, ¬(volumeOf d).Live i := by
  rintro ⟨i, hi, hfree⟩
  rw [firstFree, List.find?_range_eq_none] at h
  have hused := h i hi
  rw [Bool.not_eq_true', beq_eq_false_iff_ne] at hused
  exact hfree ⟨hi, hused⟩

/-- A new file is in the first free slot. -/
structure Creates (dev : Blkdev) (name : Option Mem) (d : ℕ → Block) (nameLen slot n b : ℕ)
    (d' : ℕ → Block) : Prop where
  valid : validName name = .ok nameLen
  first : firstFree (d rootDirLba) = some slot
  inode : FreeInode (volumeOf d) n
  block : FreeBlock dev.blockCount (volumeOf d) b
  volume : volumeOf d' =
    (volumeOf d).create slot n b (Dirent.make n modeFile (bytesAt name) nameLen)

namespace Creates

variable {dev : Blkdev} {name : Option Mem} {nameLen slot : ℕ} {d' : ℕ → Block}
  (h : Creates dev name d nameLen slot n b d')
include h

theorem slot_lt : slot < direntCount := (not_live_of_firstFree h.first).1

theorem not_live : ¬(volumeOf d).Live slot := (not_live_of_firstFree h.first).2

theorem ino : (Dirent.make n modeFile (bytesAt name) nameLen).ino = n := by
  have hle := h.inode.le_max
  rw [maxInodes] at hle
  exact Dirent.ino_make (by omega)

theorem live : (volumeOf d').Live slot := by
  have hge := h.inode.two_le
  refine ⟨h.slot_lt, ?_⟩
  rw [h.volume, Volume.create, Volume.entry_setEntry, if_pos rfl, h.ino]
  omega

theorem intact (hdev : dev.Usable) (hd : Intact dev d) : Intact dev d' := by
  rw [Intact, h.volume]
  exact hd.create h.inode h.block hdev.le_max h.ino (Dirent.type_make (by decide)) slot

end Creates

/-- How `mcsfs1_create` may end. Until the entry is written the files are the same. -/
theorem meets_mcsfs1Create_of {mnt : Mount} {C : (ℕ → Block) → Prop} (hdev : mnt.dev.Usable)
    (hd : Intact mnt.dev d) (name : Option Mem)
    (hsame : ∀ d', SameFiles (volumeOf d) (volumeOf d') → Intact mnt.dev d' → C d')
    (hnew : ∀ nameLen slot n b d', Creates mnt.dev name d nameLen slot n b d' → C d') :
    Meets C (mcsfs1Create (some mnt) name)
      (fun r d' ↦ CreateEnds mnt.dev name d r d' ∧
        (r = .ok () → ∃ nameLen slot n b, Creates mnt.dev name d nameLen slot n b d')) d := by
  obtain ⟨dev, blockCount, dataStart⟩ := mnt
  refine wp_bind (wp_ofExcept (fun nameLen hname ↦ ?_) fun e he ↦ ⟨.name he, nofun⟩)
  have hfind : wp C (succeeds (findDirent dev name))
      (fun found d' ↦ d' = d ∧ if found = true then ∃ i, Found d name i
        else NotFound d name ∨ Faulty dev.fails) (fun _ _ ↦ False) d := by
    refine wp_succeeds (wp_findDirent hdev ?_ ?_ ?_ ?_)
    · intro i hi
      exact ⟨rfl, i, hi⟩
    · intro hnot
      exact ⟨rfl, .inl hnot⟩
    · intro e he
      rw [hname] at he
      cases he
    · intro hfaulty
      exact ⟨rfl, .inr hfaulty⟩
  refine wp_bind (wp_mono hfind ?_ fun _ _ _ h ↦ h.elim)
  rintro found d' - ⟨hsame, hfound⟩
  subst d'
  refine wp_bind (wp_failIf (fun htrue ↦ ?_) fun hfalse ↦ ?_)
  · rw [if_pos htrue] at hfound
    obtain ⟨i, hi⟩ := hfound
    exact ⟨.exist hi, nofun⟩
  rw [if_neg hfalse] at hfound
  refine wp_bind (wp_devRead hdev (hdev.lt_blockCount (by decide)) ?_ fun h ↦ ⟨.io h, nofun⟩)
  cases hslot : (List.range direntCount).find? fun i ↦ (direntAt (d rootDirLba) i).ino == 0 with
  | none =>
    have hfull : ¬(volumeOf d).HasRoom dev.blockCount := fun hroom ↦
      not_hasSlot_of_firstFree hslot hroom.slot
    exact wp_throw ⟨.nospc hname hfound hfull, nofun⟩
  | some slot =>
    refine wp_bind (wp_allocInodeBlock hdev (fun d1 hd1 ↦ hsame d1 hd1.sameFiles (hd.of_marked hd1))
      (fun n b d1 hn hb hd1 ↦ ?_)
      (fun hfull ↦ ⟨.nospc hname hfound fun hroom ↦ hfull ⟨hroom.inode, hroom.block⟩, nofun⟩)
      fun _ h ↦ ⟨.io h, nofun⟩)
    have h1 : 1 ≤ n := Nat.le_of_succ_le hn.two_le
    have hinode := hd.createInode hn b
    rw [← hd1] at hinode
    refine wp_bind (wp_writeInode hdev h1 hn.le_max ?_ (fun d2 hd2 ↦ ?_) fun h ↦ ⟨.io h, nofun⟩)
    · intro d2 hd2
      refine hsame d2 ?_ (by rwa [Intact, hd2])
      rw [hd2, hd1]
      exact hd.sameFiles_createInode hn b
    rw [hd1] at hd2
    have hdir : d rootDirLba = d2 rootDirLba := rootDir_eq_of_entry_eq (by rw [hd2]; rfl)
    have hlt : slot < direntCount := by
      rw [List.find?_range_eq_some, List.mem_range] at hslot
      exact hslot.2.1
    have hvol := volumeOf_update_dir d2 hlt (Dirent.make n modeFile (bytesAt name) nameLen)
    rw [hd2, ← hdir] at hvol
    have hcreates : Creates dev name d nameLen slot n b _ := ⟨hname, hslot, hn, hb, hvol⟩
    refine wp_bind (wp_devWrite hdev (hdev.lt_blockCount (by decide))
      (hnew _ _ _ _ _ hcreates) ?_ fun h ↦ ⟨.io h, nofun⟩)
    exact wp_devFlush hdev ⟨.ok hname hfound hlt hcreates.not_live hn hb hvol,
      fun _ ↦ ⟨nameLen, slot, n, b, hcreates⟩⟩ fun h ↦ ⟨.io h, nofun⟩

/-- How `mcsfs1_create` may end; and when it succeeds, the file is in the first free slot. -/
theorem meets_mcsfs1Create_firstFree {mnt : Mount} (hdev : mnt.dev.Usable) (hd : Intact mnt.dev d)
    (name : Option Mem) :
    Meets (Intact mnt.dev) (mcsfs1Create (some mnt) name)
      (fun r d' ↦ CreateEnds mnt.dev name d r d' ∧
      (r = .ok () → ∃ slot, firstFree (d rootDirLba) = some slot ∧ (volumeOf d').Live slot)) d := by
  refine (meets_mcsfs1Create_of hdev hd name (fun _ _ h ↦ h)
    fun _ _ _ _ _ h ↦ h.intact hdev hd).mono fun r d' h ↦ ⟨h.1, fun hr ↦ ?_⟩
  obtain ⟨nameLen, slot, n, b, hcreates⟩ := h.2 hr
  exact ⟨slot, hcreates.first, hcreates.live⟩

theorem meets_mcsfs1Create {mnt : Mount} (hdev : mnt.dev.Usable) (hd : Intact mnt.dev d)
    (name : Option Mem) :
    Meets (Intact mnt.dev) (mcsfs1Create (some mnt) name) (CreateEnds mnt.dev name d) d :=
  wp_mono (meets_mcsfs1Create_firstFree hdev hd name) (fun _ _ _ h ↦ h.1) fun _ _ _ h ↦ h.1

/-! ## `mcsfs1_unlink` -/

/-- The volume without the file of entry `i`, with its inode and its blocks given back. -/
def Volume.unlink (v : Volume) (i : ℕ) : Volume :=
  Volume.setInode { (v.setEntry i (Buf.zero 32)).markInode (v.entry i).ino false with
    blockUsed := fun b ↦ v.blockUsed b && !decide ((v.file i).Owns b) }
    (v.entry i).ino (Buf.zero 60)

/-- The other files do not have what is given back. -/
theorem Consistent.sameFiles_unlink (h : Consistent bc v) (hi : v.Live i) :
    SameFiles (v.setEntry i (Buf.zero 32)) (v.unlink i) where
  entry := rfl
  inode j hj := Function.update_of_ne (h.unlinked_clear hi j hj) _ v.inode
  data _ _ _ _ := rfl

/-- How `mcsfs1_unlink` may end. -/
inductive UnlinkEnds (dev : Blkdev) (name : Option Mem) (d : ℕ → Block) :
    Except Err Unit → (ℕ → Block) → Prop
  | ok {i : ℕ} {d' : ℕ → Block} (hi : Found d name i) (hd' : volumeOf d' = (volumeOf d).unlink i) :
    UnlinkEnds dev name d (.ok ()) d'
  | name {e : Err} (h : validName name = .error e) : UnlinkEnds dev name d (.error e) d
  | noent (h : NotFound d name) : UnlinkEnds dev name d (.error .noent) d
  | io {d' : ℕ → Block} (h : Faulty dev.fails) : UnlinkEnds dev name d (.error .io) d'

theorem UnlinkEnds.unchanged {dev : Blkdev} {name : Option Mem} {e : Err} {d' : ℕ → Block}
    (h : UnlinkEnds dev name d (.error e) d') (hgood : ¬Faulty dev.fails) : d' = d := by
  cases h with
  | name | noent => rfl
  | io hfaulty => exact absurd hfaulty hgood

/-- How `mcsfs1_unlink` may end. The first write clears the entry, and what comes after it changes
none of the other files. -/
theorem meets_mcsfs1Unlink_of {mnt : Mount} {C : (ℕ → Block) → Prop} (hdev : mnt.dev.Usable)
    (hd : Intact mnt.dev d) (name : Option Mem)
    (hcleared : ∀ i d', Found d name i →
      SameFiles ((volumeOf d).setEntry i (Buf.zero 32)) (volumeOf d') → Intact mnt.dev d' → C d') :
    Meets C (mcsfs1Unlink (some mnt) name) (UnlinkEnds mnt.dev name d) d := by
  obtain ⟨dev, blockCount, dataStart⟩ := mnt
  refine wp_bind (wp_findDirent hdev (fun i hi ↦ ?_) (fun h ↦ .noent h) (fun e he ↦ .name he)
    fun h ↦ .io h)
  have hlive := hi.live
  have hentry := hd.entry i hlive
  have hfile := hd.file i hlive
  have hroot : ((volumeOf d).entry i).ino ≠ rootIno := by
    have h2 := hentry.ino_ge
    rw [rootIno]
    omega
  have hunlinked := hd.unlinked_clear hlive
  have hclear := hd.clearEntry i
  have hfree := hclear.free hentry.ino_ge hunlinked (fun b hb ↦ (hfile.range b hb).1)
    fun j hj b hb ↦ by
      obtain ⟨hji, hj⟩ := Volume.live_clear.mp hj
      rw [Volume.file_setEntry hji]
      exact hd.disjoint i j hlive hj hji.symm b hb
  refine wp_bind (wp_readFile hdev hd hlive ?_ fun h ↦ .io h)
  refine wp_bind (wp_failIf (fun hmode ↦ absurd hfile.mode hmode) fun _ ↦ ?_)
  refine wp_bind (wp_devRead hdev (hdev.lt_blockCount (by decide)) ?_ fun h ↦ .io h)
  have hvol := volumeOf_update_dir d hlive.1 (Buf.zero 32)
  refine wp_bind (wp_devWrite hdev (hdev.lt_blockCount (by decide)) ?_ ?_ fun h ↦ .io h)
  · refine hcleared i _ hi ?_ (by rwa [Intact, hvol])
    rw [hvol]
    exact ⟨rfl, fun _ _ ↦ rfl, fun _ _ _ _ ↦ rfl⟩
  generalize Function.update d rootDirLba _ = d1 at hvol
  refine wp_bind (wp_freeInodeAndBlocks hdev hentry.ino_le (fun b hb ↦ (hfile.range b hb).2) ?_ ?_
    (fun d2 hd2 ↦ ?_) fun _ h ↦ .io h)
  · intro d2 hd2
    rw [hvol] at hd2
    refine hcleared i d2 hi ?_ ?_
    · rw [hd2]
      exact ⟨rfl, fun _ _ ↦ rfl, fun _ _ _ _ ↦ rfl⟩
    · rw [Intact, hd2]
      exact hclear.unmarkInode hroot hunlinked
  · intro d2 hd2
    rw [hvol] at hd2
    refine hcleared i d2 hi ?_ (by rwa [Intact, hd2])
    rw [hd2]
    exact ⟨rfl, fun _ _ ↦ rfl, fun _ _ _ _ ↦ rfl⟩
  · rw [hvol] at hd2
    have hzero := hfree.setInode_unlinked hroot hunlinked (Buf.zero 60)
    refine wp_bind (wp_writeInode hdev (Nat.le_of_succ_le hentry.ino_ge) hentry.ino_le ?_
      (fun d3 hd3 ↦ ?_) fun h ↦ .io h)
    · intro d3 hd3
      rw [hd2] at hd3
      refine hcleared i d3 hi ?_ (by rwa [Intact, hd3])
      rw [hd3]
      exact hd.sameFiles_unlink hlive
    · refine wp_devFlush hdev (.ok hi ?_) fun h ↦ .io h
      rw [hd3, hd2]
      rfl

theorem meets_mcsfs1Unlink {mnt : Mount} (hdev : mnt.dev.Usable) (hd : Intact mnt.dev d)
    (name : Option Mem) :
    Meets (Intact mnt.dev) (mcsfs1Unlink (some mnt) name) (UnlinkEnds mnt.dev name d) d :=
  meets_mcsfs1Unlink_of hdev hd name fun _ _ _ _ h ↦ h

/-! ## `mcsfs1_read` -/

/-- The byte at position `p` of the blocks of an inode. -/
def Volume.byteAt (v : Volume) (x : Inode) (p : ℕ) : UInt8 :=
  (v.data (x.direct (p / 512))).byte (p % 512)

def Volume.bytesOf (v : Volume) (x : Inode) : List UInt8 := (List.range x.size).map (v.byteAt x)

theorem Volume.bytesOf_setEntry (v : Volume) (i : ℕ) (e : Dirent) (x : Inode) :
    (v.setEntry i e).bytesOf x = v.bytesOf x := rfl

theorem map_byteAt_append (v : Volume) (x : Inode) {size j : ℕ} (hj : 512 * j ≤ size) :
    (List.range (512 * j)).map (v.byteAt x) ++
      (List.range (min (size - 512 * j) 512)).map (v.data (x.direct j)).byte =
      (List.range (min size (512 * (j + 1)))).map (v.byteAt x) := by
  have hmin : min size (512 * (j + 1)) = 512 * j + min (size - 512 * j) 512 := by omega
  rw [hmin, List.range_add, List.map_append, List.map_map]
  congr 1
  refine List.map_congr_left fun p hp ↦ ?_
  have hlt : p < 512 := by
    rw [List.mem_range] at hp
    omega
  rw [Function.comp_apply, Volume.byteAt, Nat.mul_add_mod, Nat.mod_eq_of_lt hlt,
    Nat.mul_add_div (by decide), Nat.div_eq_of_lt hlt, Nat.add_zero]

theorem wp_readBlocks {dev : Blkdev} {C : (ℕ → Block) → Prop} {err : Err → (ℕ → Block) → Prop}
    {ok : List UInt8 → (ℕ → Block) → Prop} {used : ℕ → Bool} {x : Inode} {blockCount : ℕ}
    (hdev : dev.Usable) (hx : GoodFile dev.blockCount used x) (hok : ok ((volumeOf d).bytesOf x) d)
    (hmount : blockCount ≠ dev.blockCount → err .corrupt d) (hio : Faulty dev.fails → err .io d)
    {j k : ℕ} (hjk : j + k = blocksFor x.size) {acc : List UInt8}
    (hacc : acc = (List.range (min x.size (512 * j))).map ((volumeOf d).byteAt x)) :
    wp C (readBlocks dev blockCount x j k acc) ok err d := by
  have hblocks := blocksFor_eq hx.size
  induction k generalizing j acc with
  | zero =>
    refine wp_pure ?_
    rwa [hacc, min_eq_left (by omega)]
  | succ k ih =>
    have hneeded : x.direct j ≠ 0 := hx.needed j (by rw [neededBlocks]; omega)
    have hj8 : j < directBlocks := Nat.lt_of_lt_of_le (by rw [neededBlocks]; omega)
      (neededBlocks_le hx.size)
    obtain ⟨hge, hlt⟩ := hx.range (x.direct j) ⟨hneeded, j, hj8, rfl⟩
    refine wp_bind (wp_failIf (fun hbad ↦ hmount fun heq ↦ ?_) fun _ ↦ ?_)
    · rw [heq] at hbad
      omega
    · refine wp_bind (wp_devRead hdev hlt ?_ hio)
      have hle : 512 * j ≤ x.size := by omega
      have hround := map_byteAt_append (volumeOf d) x hle
      rw [data_volumeOf hge] at hround
      refine ih (by omega) ?_
      rw [hacc, List.length_map, List.length_range, min_eq_right hle, blockSize, hround]

/-- How `mcsfs1_read` may end. -/
inductive ReadEnds (mnt : Mount) (name : Option Mem) (buf : Bool) (cap : ℕ) (outLen : Bool)
    (d : ℕ → Block) : Except Err (ℕ × List UInt8) → (ℕ → Block) → Prop
  | ok {i : ℕ} (hi : Found d name i) (hcap : ((volumeOf d).file i).size ≤ cap) :
    ReadEnds mnt name buf cap outLen d
      (.ok (((volumeOf d).file i).size, (volumeOf d).bytesOf ((volumeOf d).file i))) d
  | args (h : buf = false ∨ outLen = false) : ReadEnds mnt name buf cap outLen d (.error .inval) d
  | name {e : Err} (h : validName name = .error e) :
    ReadEnds mnt name buf cap outLen d (.error e) d
  | noent (h : NotFound d name) : ReadEnds mnt name buf cap outLen d (.error .noent) d
  | range {i : ℕ} (hi : Found d name i) (hcap : cap < ((volumeOf d).file i).size) :
    ReadEnds mnt name buf cap outLen d (.error .range) d
  | mount (h : mnt.blockCount ≠ mnt.dev.blockCount) :
    ReadEnds mnt name buf cap outLen d (.error .corrupt) d
  | io (h : Faulty mnt.dev.fails) : ReadEnds mnt name buf cap outLen d (.error .io) d

theorem ReadEnds.unchanged {mnt : Mount} {name : Option Mem} {buf outLen : Bool} {cap : ℕ}
    {r : Except Err (ℕ × List UInt8)} {d' : ℕ → Block}
    (h : ReadEnds mnt name buf cap outLen d r d') : d' = d := by
  cases h <;> rfl

theorem meets_mcsfs1Read {mnt : Mount} {C : (ℕ → Block) → Prop} (hdev : mnt.dev.Usable)
    (hd : Intact mnt.dev d) (name : Option Mem) (buf : Bool) (cap : ℕ) (outLen : Bool) :
    Meets C (mcsfs1Read (some mnt) name buf cap outLen)
      (ReadEnds mnt name buf cap outLen d) d := by
  obtain ⟨dev, blockCount, dataStart⟩ := mnt
  refine wp_bind (wp_failIf (fun hargs ↦ .args hargs) fun _ ↦ ?_)
  refine wp_bind (wp_findDirent hdev (fun i hi ↦ ?_) (fun h ↦ .noent h) (fun e he ↦ .name he)
    fun h ↦ .io h)
  have hfile := hd.file i hi.live
  refine wp_bind (wp_readFile hdev hd hi.live ?_ fun h ↦ .io h)
  refine wp_bind (wp_failIf (fun hmode ↦ absurd hfile.mode hmode) fun _ ↦ ?_)
  refine wp_bind (wp_failIf (fun hcap ↦ .range hi hcap) fun hcap ↦ wp_bind ?_)
  refine wp_readBlocks hdev hfile ?_ (fun h ↦ .mount h) (fun h ↦ .io h) (Nat.zero_add _) ?_
  · exact wp_pure (.ok hi (Nat.le_of_not_lt hcap))
  · rw [Nat.mul_zero, Nat.min_zero, List.range_zero, List.map_nil]

end Mcsfs1

end Mcsos
