import Mathlib.Data.List.Find
import Mcsos.Mcsfs1.Names

/-!
# The directory of files

The root directory is seen as sixteen slots, each free or with the name and the bytes of a file.
`Directory.Step` says what the four operations do to it. A call that returns `MCSFS1_ERR_IO` has
stopped somewhere on its way, so it leaves one of the directories that it goes through
(`Directory.Moment`): a new file is there or not, a removed file is gone or not, and a file that was
to be overwritten has its old length with some of its first blocks replaced, or all of the new
contents. Blocks and inodes that were marked on the way may stay marked; they belong to nobody.

Slots are needed rather than a map from names. If the lookup of `mcsfs1_create` fails, the name may
be in the directory already, and then it is there twice. The first slot is the one that counts.

Every call on a mounted volume, whichever calls of the device fail, does a step of the directory
that the volume shows (`Shows.step`). Names of 27 bytes fill the name field of an entry to its end;
they are left out.
-/

namespace Mcsos

namespace Mcsfs1

open FaultyDisk

/-! ## The specification -/

/-- The bytes of a buffer. -/
def bufferBytes (buf : Option Mem) (len : ℕ) : List UInt8 := (List.range len).map (bytesAt buf)

/-- A call of a client. -/
inductive FileCall
  | create (n : CStr)
  | write (n : CStr) (buf : Option Mem) (len : ℕ)
  | read (n : CStr) (cap : ℕ)
  | unlink (n : CStr)

namespace FileCall

/-- The name that a call is about. -/
def name : FileCall → CStr
  | create n => n
  | write n _ _ => n
  | read n _ => n
  | unlink n => n

/-- The call with its pointers: only `buf` of `mcsfs1_write` may be `NULL`. -/
def toCall : FileCall → Call
  | create n => .create (some n.char)
  | write n buf len => .write (some n.char) buf len
  | read n cap => .read (some n.char) true cap true
  | unlink n => .unlink (some n.char)

def fail (e : Err) : FileCall → Ret
  | read _ _ => .bytes (.error e)
  | _ => .status (.error e)

end FileCall

/-- The slots of the root directory, with the names and the bytes of the files. -/
abbrev Directory := ℕ → Option (CStr × List UInt8)

namespace Directory

def empty : Directory := fun _ ↦ none

def find (D : Directory) (n : CStr) : Option ℕ :=
  (List.range direntCount).find? fun i ↦ decide ((D i).map Prod.fst = some n)

def vacant (D : Directory) : Option ℕ := (List.range direntCount).find? fun i ↦ (D i).isNone

/-- What is found under a name. -/
def lookup (D : Directory) (n : CStr) : Option (List UInt8) := ((D.find n).bind D).map Prod.snd

/-- What `mcsfs1_read` returns on a device that does not fail. -/
def readAnswer (D : Directory) (n : CStr) (cap : ℕ) : Ret :=
  match nameError n, D.lookup n with
  | some e, _ => .bytes (.error e)
  | none, none => .bytes (.error .noent)
  | none, some b => if cap < b.length then .bytes (.error .range) else .bytes (.ok (b.length, b))

/-- Bytes of which the first `k` blocks have been replaced by those of a buffer. -/
def torn (buf : Mem) (len k : ℕ) (old : List UInt8) : List UInt8 :=
  old.mapIdx fun p c ↦ if p / blockSize < k then if p < len then buf p else 0 else c

/-- The directories that a call goes through. -/
inductive Moment (D : Directory) : FileCall → Directory → Prop
  | before (c : FileCall) : Moment D c D
  | created {n i} (free : D.vacant = some i) :
    Moment D (.create n) (Function.update D i (some (n, [])))
  | torn {n buf len i old k} (found : D.find n = some i) (content : D i = some (n, old))
    (some_blocks : k ≤ neededBlocks len) :
    Moment D (.write n buf len) (Function.update D i (some (n, torn (bytesAt buf) len k old)))
  | written {n buf len i} (found : D.find n = some i) :
    Moment D (.write n buf len) (Function.update D i (some (n, bufferBytes buf len)))
  | removed {n i} (found : D.find n = some i) : Moment D (.unlink n) (Function.update D i none)

/-- The calls, with what they return. -/
inductive Step (faulty : Prop) : FileCall → Ret → Directory → Directory → Prop
  | io {c D D'} (fault : faulty) (moment : Moment D c D') : Step faulty c (c.fail .io) D D'
  | name {c D e} (invalid : nameError c.name = some e) : Step faulty c (c.fail e) D D
  | createExist {n D i} (valid : nameError n = none) (found : D.find n = some i) :
    Step faulty (.create n) (.status (.error .exist)) D D
  | createNospc {n D} (valid : nameError n = none) (absent : D.find n = none ∨ faulty) :
    Step faulty (.create n) (.status (.error .nospc)) D D
  | createOk {n D i} (valid : nameError n = none) (absent : D.find n = none ∨ faulty)
    (free : D.vacant = some i) :
    Step faulty (.create n) (.status (.ok ())) D (Function.update D i (some (n, [])))
  | writeInval {n buf len D} (null : buf = none ∧ len ≠ 0) :
    Step faulty (.write n buf len) (.status (.error .inval)) D D
  | writeRange {n buf len D} (large : directBlocks * blockSize < len) :
    Step faulty (.write n buf len) (.status (.error .range)) D D
  | writeNoent {n buf len D} (valid : nameError n = none) (absent : D.find n = none) :
    Step faulty (.write n buf len) (.status (.error .noent)) D D
  | writeNospc {n buf len D i} (valid : nameError n = none) (found : D.find n = some i) :
    Step faulty (.write n buf len) (.status (.error .nospc)) D D
  | writeOk {n buf len D i} (valid : nameError n = none) (found : D.find n = some i) :
    Step faulty (.write n buf len) (.status (.ok ())) D
      (Function.update D i (some (n, bufferBytes buf len)))
  | read {n cap D} : Step faulty (.read n cap) (D.readAnswer n cap) D D
  | unlinkNoent {n D} (valid : nameError n = none) (absent : D.find n = none) :
    Step faulty (.unlink n) (.status (.error .noent)) D D
  | unlinkOk {n D i} (valid : nameError n = none) (found : D.find n = some i) :
    Step faulty (.unlink n) (.status (.ok ())) D (Function.update D i none)

variable {D D' : Directory} {n m : CStr} {i : ℕ} {f : Option (CStr × List UInt8)}

theorem content_of_find (h : D.find n = some i) : ∃ b, D i = some (n, b) := by
  rw [find, List.find?_range_eq_some, decide_eq_true_eq, Option.map_eq_some_iff] at h
  obtain ⟨⟨⟨_, b⟩, hi, rfl⟩, -⟩ := h
  exact ⟨b, hi⟩

theorem free_of_vacant (h : D.vacant = some i) : D i = none := by
  rw [vacant, List.find?_range_eq_some, Option.isNone_iff_eq_none] at h
  exact h.1

theorem lookup_update (hbefore : ∀ b, D i ≠ some (m, b)) (hafter : ∀ b, f ≠ some (m, b)) :
    lookup (Function.update D i f) m = D.lookup m := by
  have hnot : ∀ g : Option (CStr × List UInt8), (∀ b, g ≠ some (m, b)) →
      g.map Prod.fst ≠ some m := by
    rintro (_ | ⟨n, b⟩) hg heq
    · cases heq
    · exact hg b (by rw [← Option.some.inj heq])
  have hfind : find (Function.update D i f) m = D.find m := by
    refine List.find?_congr fun j _ ↦ decide_eq_decide.mpr ?_
    by_cases hji : j = i
    · rw [hji, Function.update_self]
      exact iff_of_false (hnot f hafter) (hnot _ hbefore)
    · rw [Function.update_of_ne hji]
  rw [lookup, lookup, hfind]
  cases hj : D.find m with
  | none => rfl
  | some j =>
    obtain ⟨b, hb⟩ := content_of_find hj
    have hji : j ≠ i := fun heq ↦ hbefore b (heq ▸ hb)
    rw [Option.bind_some, Option.bind_some, Function.update_of_ne hji]

theorem Moment.lookup {c : FileCall} (h : Moment D c D') (hm : m ≠ c.name) :
    D'.lookup m = D.lookup m := by
  have hname : ∀ {b b' : List UInt8} {n}, m ≠ n → some (n, b) ≠ some (m, b') := by
    rintro b b' n hne ⟨⟩
    exact hne rfl
  cases h with
  | before => rfl
  | created free =>
    refine lookup_update (fun b ↦ ?_) fun b ↦ hname hm
    rw [free_of_vacant free]
    exact Option.some_ne_none _ |>.symm
  | torn found content _ =>
    refine lookup_update (fun b ↦ ?_) fun b ↦ hname hm
    rw [content]
    exact hname hm
  | written found =>
    obtain ⟨b, hb⟩ := content_of_find found
    refine lookup_update (fun b ↦ ?_) fun b ↦ hname hm
    rw [hb]
    exact hname hm
  | removed found =>
    obtain ⟨b, hb⟩ := content_of_find found
    refine lookup_update (fun b ↦ ?_) fun b ↦ (Option.some_ne_none _).symm
    rw [hb]
    exact hname hm

/-- Every call leaves a directory that it could be stopped in. -/
theorem Step.moment {faulty : Prop} {c : FileCall} {r : Ret} (h : Step faulty c r D D') :
    Moment D c D' := by
  cases h with
  | io _ moment => exact moment
  | createOk _ _ free => exact .created free
  | writeOk _ found => exact .written found
  | unlinkOk _ found => exact .removed found
  | name | createExist | createNospc | writeInval | writeRange | writeNoent | writeNospc | read
  | unlinkNoent => exact .before _

end Directory

/-! ## The directory of a volume -/

variable {bc : ℕ} {v v' : Volume} {d d' : ℕ → Block} {D : Directory} {n : CStr} {i : ℕ}

/-- The volume holds the files of the directory `D`. -/
structure Shows (bc : ℕ) (D : Directory) (v : Volume) : Prop where
  consistent : Consistent bc v
  free : ∀ i, D i = none → ¬v.Live i
  named : ∀ i n b, D i = some (n, b) → n.length ≤ 26 ∧ Named v i n
  content : ∀ i n b, D i = some (n, b) → v.bytesOf (v.file i) = b

theorem bytesOf_congr {v' : Volume} {used : ℕ → Bool} {x : Inode} (hx : GoodFile bc used x)
    (hdata : ∀ b, x.Owns b → v'.data b = v.data b) : v'.bytesOf x = v.bytesOf x := by
  have hneeded := neededBlocks_le hx.size
  refine List.map_congr_left fun p hp ↦ ?_
  rw [List.mem_range] at hp
  have hblock : p / 512 < neededBlocks x.size := by
    rw [neededBlocks]
    omega
  rw [Volume.byteAt, Volume.byteAt, hdata _ ⟨hx.needed _ hblock, p / 512, by omega, rfl⟩]

/-! ## Files that are being written -/

theorem byte_chunkAt_mod (buf : Mem) (len p : ℕ) :
    (chunkAt buf len (p / 512)).byte (p % 512) = if p < len then buf p else 0 := by
  split_ifs with hp
  · exact byte_chunkAt hp
  · have hmod : p % 512 < 512 := Nat.mod_lt _ (by decide)
    have hdiv := Nat.div_add_mod p 512
    rw [chunkAt, Buf.byte_copyIn_of_le (by omega) hmod, Buf.byte_zero]

namespace Torn

variable {buf : Mem} {len k : ℕ} {x : Inode} (h : Torn bc v i buf len k x v')
include h

theorem entry : v'.entry = v.entry := by
  have hvolume := congrArg Volume.entry h.allocated.volume
  exact hvolume

theorem file (j : ℕ) : v'.file j = v.file j := by
  have hvolume := congrArg Volume.inode h.allocated.volume
  have hinode : v'.inode = v.inode := hvolume
  rw [Volume.file, h.entry, hinode, Volume.file]

theorem bytesOf_other (hv : Consistent bc v) {j : ℕ} (hj : j ≠ i) (hlive : v.Live j) :
    v'.bytesOf (v'.file j) = v.bytesOf (v.file j) := by
  rw [h.file]
  refine bytesOf_congr (hv.file j hlive) fun b hb ↦ h.fills.other b fun l _ hl heq ↦ ?_
  have hclear := h.allocated.candidate.clear j (by rwa [Volume.Live, ← h.entry] at hlive) hj b
  have hl8 : l < directBlocks := Nat.lt_of_lt_of_le hl (h.le_needed.trans h.needed_le)
  refine hclear ⟨hb.1, l, hl8, heq⟩ ?_
  change (v'.file j).Owns b
  rwa [h.file]

/-- Blocks of the file that come after the written ones are not among these. -/
theorem bytesOf (hv : Consistent bc v) (hi : v.Live i) :
    v'.bytesOf (v'.file i) = Directory.torn buf len k (v.bytesOf (v.file i)) := by
  have hfile := hv.file i hi
  have hneeded := neededBlocks_le hfile.size
  rw [h.file]
  refine List.ext_getElem ?_ fun p hp hp' ↦ ?_
  · rw [Directory.torn, List.length_mapIdx, Volume.bytesOf, Volume.bytesOf, List.length_map,
      List.length_map]
  have hsize : p < (v.file i).size := by
    rwa [Volume.bytesOf, List.length_map, List.length_range] at hp
  have hblock : p / 512 < neededBlocks (v.file i).size := by
    rw [neededBlocks]
    omega
  have hq : p / 512 < directBlocks := by omega
  have hne : (v.file i).direct (p / 512) ≠ 0 := hfile.needed _ hblock
  have hkept : x.direct (p / 512) = (v.file i).direct (p / 512) := h.allocated.kept _ hq hne
  have hold : p < (v.bytesOf (v.file i)).length := by
    rwa [Volume.bytesOf, List.length_map, List.length_range]
  have hbyte : ∀ w : Volume, (hw : p < (w.bytesOf (v.file i)).length) →
      (w.bytesOf (v.file i))[p] = w.byteAt (v.file i) p := by
    intro w hw
    simp only [Volume.bytesOf, List.getElem_map, List.getElem_range]
  rw [hbyte v' hp]
  simp only [Directory.torn, List.getElem_mapIdx, hbyte v hold, blockSize]
  by_cases hk : p / 512 < k
  · rw [if_pos hk, ← byte_chunkAt_mod, Volume.byteAt, ← hkept,
      h.fills.filled _ (Nat.zero_le _) hk]
  · rw [if_neg hk, Volume.byteAt, Volume.byteAt, ← hkept, h.fills.other _ fun l _ hl heq ↦ ?_]
    have hl8 : l < directBlocks := Nat.lt_of_lt_of_le hl (h.le_needed.trans h.needed_le)
    rw [h.allocated.candidate.once l hl8 _ hq (by rwa [heq, hkept]) heq] at hl
    exact hk hl

end Torn

namespace Wrote

variable {buf : Mem} {len : ℕ} {x : Inode} (h : Wrote v i buf len x v')
include h

theorem file_self : v'.file i = x := by
  rw [h.volume, Volume.file]
  exact Function.update_self (v.entry i).ino x v.inode

theorem bytesOf_other (hv : Consistent bc v) (hv' : Consistent bc v') (hi : v.Live i) {j : ℕ}
    (hj : j ≠ i) (hlive : v.Live j) : v'.bytesOf (v'.file j) = v.bytesOf (v.file j) := by
  have hentry : v'.entry = v.entry := by
    rw [h.volume]
    rfl
  have hji : (v.entry j).ino ≠ (v.entry i).ino := fun heq ↦
    hj (hv.linkedOnce j i hlive hi heq)
  have hsame : v'.file j = v.file j := by
    rw [h.volume, Volume.file]
    exact Function.update_of_ne hji x v.inode
  rw [hsame]
  refine bytesOf_congr (hv.file j hlive) fun b hb ↦ h.other b fun hbx ↦ ?_
  have hdisjoint := hv'.disjoint j i (by rwa [Volume.Live, hentry]) (by rwa [Volume.Live, hentry])
    hj b
  rw [hsame, h.file_self] at hdisjoint
  exact hdisjoint hb hbx

end Wrote

namespace Shows

section Lookup

variable (h : Shows bc D (volumeOf d))
include h

theorem live_iff : (volumeOf d).Live i ↔ D i ≠ none := by
  refine ⟨fun hlive hnone ↦ h.free i hnone hlive, fun hsome ↦ ?_⟩
  obtain ⟨⟨n, b⟩, hi⟩ := Option.ne_none_iff_exists'.mp hsome
  exact (h.named i n b hi).2.live

theorem findName_eq (n : CStr) (past : UInt8) :
    findName (d rootDirLba) past n.char n.length = D.find n := by
  refine List.find?_congr fun i hi ↦ decide_eq_decide.mpr ?_
  rw [List.mem_range] at hi
  cases hD : D i with
  | none =>
    refine iff_of_false (fun hmatch ↦ h.free i hD ⟨hi, hmatch.1⟩) ?_
    exact (Option.some_ne_none _).symm
  | some f =>
    obtain ⟨m, b⟩ := f
    obtain ⟨hlen, hnamed⟩ := h.named i m b hD
    rw [hnamed.matches_iff hlen past, Option.map_some, Option.some_inj]
    exact and_iff_right hnamed.live.2

theorem find_of_found (hfound : Found d (some n.char) i) : D.find n = some i := by
  obtain ⟨nameLen, past, hvalid, hfind⟩ := hfound
  rw [(nameError_eq_none hvalid).2.1] at hfind
  exact (h.findName_eq n past).symm.trans hfind

theorem find_of_notFound (hnot : NotFound d (some n.char)) : D.find n = none := by
  obtain ⟨nameLen, past, hvalid, hfind⟩ := hnot
  rw [(nameError_eq_none hvalid).2.1] at hfind
  exact (h.findName_eq n past).symm.trans hfind

theorem lookup_of_found (hfound : Found d (some n.char) i) :
    D.lookup n = some ((volumeOf d).bytesOf ((volumeOf d).file i)) := by
  have hfind := h.find_of_found hfound
  obtain ⟨b, hb⟩ := Directory.content_of_find hfind
  rw [Directory.lookup, hfind, Option.bind_some, hb, Option.map_some, h.content i n b hb]

theorem firstFree_eq : firstFree (d rootDirLba) = D.vacant := by
  refine List.find?_congr fun i hi ↦ ?_
  rw [Bool.eq_iff_iff, beq_iff_eq, Option.isNone_iff_eq_none, ← not_iff_not, ← ne_eq (D i),
    ← h.live_iff]
  exact (and_iff_right (List.mem_range.mp hi)).symm

end Lookup

/-! ## Steps of a volume -/

section Steps

variable (h : Shows bc D v)
include h

theorem same (hsame : SameFiles v v') (hv' : Consistent bc v') : Shows bc D v' := by
  have hlive : ∀ i, v'.Live i ↔ v.Live i := fun i ↦ by
    rw [Volume.Live, Volume.Live, hsame.entry]
  refine ⟨hv', fun i hi hlive' ↦ h.free i hi ((hlive i).mp hlive'), fun i n b hi ↦ ?_,
    fun i n b hi ↦ ?_⟩
  · obtain ⟨hlen, hnamed⟩ := h.named i n b hi
    exact ⟨hlen, (named_congr (by rw [hsame.entry])).mpr hnamed⟩
  · have hi' := (h.named i n b hi).2.live
    have hfile : v'.file i = v.file i := by
      rw [Volume.file, hsame.entry, hsame.inode i hi', Volume.file]
    rw [hfile, bytesOf_congr (h.consistent.file i hi') (hsame.data i hi'), h.content i n b hi]

theorem change {t : ℕ} {f : Option (CStr × List UInt8)} (hv' : Consistent bc v')
    (hentry : ∀ j, j ≠ t → v'.entry j = v.entry j)
    (hbytes : ∀ j, j ≠ t → v.Live j → v'.bytesOf (v'.file j) = v.bytesOf (v.file j))
    (hfree : f = none → ¬v'.Live t) (hnamed : ∀ n b, f = some (n, b) → n.length ≤ 26 ∧ Named v' t n)
    (hcontent : ∀ n b, f = some (n, b) → v'.bytesOf (v'.file t) = b) :
    Shows bc (Function.update D t f) v' := by
  refine ⟨hv', fun i hi ↦ ?_, fun i n b hi ↦ ?_, fun i n b hi ↦ ?_⟩
  · by_cases hit : i = t
    · rw [hit] at hi ⊢
      exact hfree (by rwa [Function.update_self] at hi)
    · rw [Function.update_of_ne hit] at hi
      rw [Volume.Live, hentry i hit]
      exact h.free i hi
  · by_cases hit : i = t
    · rw [hit] at hi ⊢
      exact hnamed n b (by rwa [Function.update_self] at hi)
    · rw [Function.update_of_ne hit] at hi
      obtain ⟨hlen, hold⟩ := h.named i n b hi
      exact ⟨hlen, (named_congr (hentry i hit)).mpr hold⟩
  · by_cases hit : i = t
    · rw [hit] at hi ⊢
      exact hcontent n b (by rwa [Function.update_self] at hi)
    · rw [Function.update_of_ne hit] at hi
      rw [hbytes i hit (h.named i n b hi).2.live, h.content i n b hi]

theorem clear (i : ℕ) : Shows bc (Function.update D i none) (v.setEntry i (Buf.zero 32)) := by
  refine h.change (h.consistent.clearEntry i) (fun j hj ↦ ?_) (fun j hj _ ↦ ?_)
    (fun _ hlive ↦ (Volume.live_clear.mp hlive).1 rfl) nofun nofun
  · rw [Volume.entry_setEntry, if_neg hj]
  · rw [Volume.file_setEntry hj, Volume.bytesOf_setEntry]

theorem torn {buf : Mem} {len k : ℕ} {x : Inode} {old : List UInt8}
    (htorn : Torn bc v i buf len k x v') (hv' : Consistent bc v') (hi : D i = some (n, old)) :
    Shows bc (Function.update D i (some (n, Directory.torn buf len k old))) v' := by
  obtain ⟨hlen, hnamed⟩ := h.named i n old hi
  refine h.change hv' (fun j _ ↦ by rw [htorn.entry]) (fun j hj hlive ↦ ?_) nofun ?_ ?_
  · exact htorn.bytesOf_other h.consistent hj hlive
  · rintro m b ⟨⟩
    exact ⟨hlen, (named_congr (by rw [htorn.entry])).mpr hnamed⟩
  · rintro m b ⟨⟩
    rw [htorn.bytesOf h.consistent hnamed.live, h.content i n old hi]

theorem write {buf : Mem} {len : ℕ} {x : Inode} {old : List UInt8} (hwrote : Wrote v i buf len x v')
    (hv' : Consistent bc v') (hi : D i = some (n, old)) :
    Shows bc (Function.update D i (some (n, (List.range len).map buf))) v' := by
  obtain ⟨hlen, hnamed⟩ := h.named i n old hi
  have hentry : v'.entry = v.entry := by
    rw [hwrote.volume]
    rfl
  refine h.change hv' (fun j _ ↦ by rw [hentry]) (fun j hj hlive ↦ ?_) nofun ?_ ?_
  · exact hwrote.bytesOf_other h.consistent hv' hnamed.live hj hlive
  · rintro m b ⟨⟩
    exact ⟨hlen, (named_congr (by rw [hentry])).mpr hnamed⟩
  · rintro m b ⟨⟩
    rw [hwrote.file_self, hwrote.bytes]

end Steps

theorem create {dev : Blkdev} {nameLen slot k b : ℕ} (h : Shows dev.blockCount D (volumeOf d))
    (hdev : dev.Usable) (hnew : Creates dev (some n.char) d nameLen slot k b d')
    (hlen : n.length ≤ 26) :
    Shows dev.blockCount (Function.update D slot (some (n, []))) (volumeOf d') := by
  have hd' := hnew.intact hdev h.consistent
  obtain ⟨-, hnameLen, -⟩ := nameError_eq_none hnew.valid
  have hbefore := h.same (h.consistent.sameFiles_createInode hnew.inode b)
    (h.consistent.createInode hnew.inode b)
  have hself : (volumeOf d').entry slot = Dirent.make k modeFile n.char n.length := by
    have hbytes : bytesAt (some n.char) = n.char := rfl
    rw [hnew.volume, Volume.create, Volume.entry_setEntry, if_pos rfl, hnameLen, hbytes]
  refine hbefore.change hd' (fun j hj ↦ ?_) (fun j hj _ ↦ ?_)
    (absurd · (Option.some_ne_none _)) ?_ ?_
  · rw [hnew.volume, Volume.create, Volume.entry_setEntry, if_neg hj]
  · rw [hnew.volume, Volume.create, Volume.file_setEntry hj, Volume.bytesOf_setEntry]
  · rintro m c ⟨⟩
    refine ⟨hlen, hnew.live, fun j hj ↦ ?_⟩
    rw [hself, Dirent.name_make hj]
    split_ifs with hlt
    · rfl
    · exact (CStr.char_eq_zero_iff.mpr (Nat.le_of_not_lt hlt)).symm
  · rintro m c ⟨⟩
    rw [hnew.volume, Volume.file_create hnew.ino, Volume.bytesOf,
      Inode.size_make modeFile b (by decide), List.range_zero, List.map_nil]

end Shows

/-! ## Operations -/

/-- What the disk may hold at a moment of a call in the directory `D`. -/
def Passes (dev : Blkdev) (D : Directory) (c : FileCall) (d : ℕ → Block) : Prop :=
  ∃ D', D.Moment c D' ∧ Shows dev.blockCount D' (volumeOf d)

/-- What the disk may hold after a call in the directory `D` that has returned `r`. -/
def Leaves (dev : Blkdev) (D : Directory) (c : FileCall) (r : Ret) (d : ℕ → Block) : Prop :=
  ∃ D', Directory.Step (Faulty dev.fails) c r D D' ∧ Shows dev.blockCount D' (volumeOf d)

theorem Passes.io {dev : Blkdev} {c : FileCall} (h : Passes dev D c d)
    (hfaulty : Faulty dev.fails) : Leaves dev D c (c.fail .io) d := by
  obtain ⟨D', hmoment, hshows⟩ := h
  exact ⟨D', .io hfaulty hmoment, hshows⟩

section Operations

variable {mnt : Mount} (hdev : mnt.dev.Usable) (h : Shows mnt.dev.blockCount D (volumeOf d))
include hdev h

theorem meets_create (hlen : n.length ≠ maxName) :
    Meets (Passes mnt.dev D (.create n)) (mcsfs1Create (some mnt) (some n.char))
      (fun r ↦ Leaves mnt.dev D (.create n) (.status r)) d := by
  have hshort : ∀ {nameLen slot k b d'}, Creates mnt.dev (some n.char) d nameLen slot k b d' →
      n.length ≤ 26 := fun hnew ↦ by
    have hle := (nameError_eq_none hnew.valid).2.2
    rw [maxName] at hlen hle
    omega
  have hfree : ∀ {nameLen slot k b d'}, Creates mnt.dev (some n.char) d nameLen slot k b d' →
      D.vacant = some slot := fun hnew ↦ h.firstFree_eq.symm.trans hnew.first
  have hmeets := meets_mcsfs1Create_of (C := Passes mnt.dev D (.create n)) hdev h.consistent
    (some n.char) (fun d' hsame hd' ↦ ⟨D, .before _, h.same hsame hd'⟩)
    fun nameLen slot k b d' hnew ↦
      ⟨_, .created (hfree hnew), h.create hdev hnew (hshort hnew)⟩
  refine wp_mono hmeets (fun _ d' _ hends ↦ ?_) fun e d' hpasses hends ↦ ?_
  · obtain ⟨hends, hnew⟩ := hends
    obtain ⟨nameLen, slot, k, b, hnew⟩ := hnew rfl
    cases hends with
    | ok hname hfound =>
      exact ⟨_, .createOk (nameError_eq_none hname).1 (hfound.imp_left h.find_of_notFound)
        (hfree hnew), h.create hdev hnew (hshort hnew)⟩
  · obtain ⟨hends, -⟩ := hends
    cases hends with
    | name herr => exact ⟨D, .name (nameError_eq_some herr), h⟩
    | exist hi => exact ⟨D, .createExist hi.nameError (h.find_of_found hi), h⟩
    | nospc hname hfound =>
      exact ⟨D, .createNospc (nameError_eq_none hname).1 (hfound.imp_left h.find_of_notFound), h⟩
    | io hfaulty => exact hpasses.io hfaulty

theorem meets_write (buf : Option Mem) (len : ℕ) :
    Meets (Passes mnt.dev D (.write n buf len)) (mcsfs1Write (some mnt) (some n.char) buf len)
      (fun r ↦ Leaves mnt.dev D (.write n buf len) (.status r)) d := by
  have hmeets := meets_mcsfs1Write_of (C := Passes mnt.dev D (.write n buf len)) hdev h.consistent
    (some n.char) buf len
    (fun d' hmarked ↦
      ⟨D, .before _, h.same hmarked.sameFiles (h.consistent.of_marked hmarked)⟩)
    (fun i k x d' hi htorn hd' ↦ by
      obtain ⟨b, hb⟩ := Directory.content_of_find (h.find_of_found hi)
      exact ⟨_, .torn (h.find_of_found hi) hb htorn.le_needed, h.torn htorn hd' hb⟩)
    fun i x d' hi hwrote hd' ↦ by
      obtain ⟨b, hb⟩ := Directory.content_of_find (h.find_of_found hi)
      exact ⟨_, .written (h.find_of_found hi), h.write hwrote hd' hb⟩
  refine wp_mono hmeets (fun _ d' hpasses hends ↦ ?_) fun e d' hpasses hends ↦ ?_
  · obtain ⟨_, -, hshows⟩ := hpasses
    cases hends with
    | ok hi hwrote =>
      obtain ⟨b, hb⟩ := Directory.content_of_find (h.find_of_found hi)
      exact ⟨_, .writeOk hi.nameError (h.find_of_found hi), h.write hwrote hshows.consistent hb⟩
  · cases hends with
    | args hnull => exact ⟨D, .writeInval hnull, h⟩
    | range hlarge => exact ⟨D, .writeRange hlarge, h⟩
    | name herr => exact ⟨D, .name (nameError_eq_some herr), h⟩
    | noent hnot => exact ⟨D, .writeNoent hnot.nameError (h.find_of_notFound hnot), h⟩
    | nospc hi hd' =>
      obtain ⟨_, -, hshows⟩ := hpasses
      refine ⟨D, .writeNospc hi.nameError (h.find_of_found hi), h.same ?_ hshows.consistent⟩
      rw [hd']
      exact ⟨rfl, fun _ _ ↦ rfl, fun _ _ _ _ ↦ rfl⟩
    | io hfaulty => exact hpasses.io hfaulty

theorem meets_read (hcount : mnt.blockCount = mnt.dev.blockCount) (cap : ℕ) :
    Meets (Passes mnt.dev D (.read n cap)) (mcsfs1Read (some mnt) (some n.char) true cap true)
      (fun r ↦ Leaves mnt.dev D (.read n cap) (.bytes r)) d := by
  have hlength : ∀ x : Inode, ((volumeOf d).bytesOf x).length = x.size := fun x ↦ by
    rw [Volume.bytesOf, List.length_map, List.length_range]
  have hstep : ∀ {r}, D.readAnswer n cap = .bytes r → Leaves mnt.dev D (.read n cap) (.bytes r) d :=
    fun hr ↦ ⟨D, hr ▸ .read, h⟩
  refine (meets_mcsfs1Read hdev h.consistent (some n.char) true cap true).mono fun r d' hends ↦ ?_
  cases hends with
  | ok hi hcap =>
    refine hstep ?_
    rw [Directory.readAnswer, hi.nameError, h.lookup_of_found hi]
    simp only [hlength, if_neg (Nat.not_lt_of_le hcap)]
  | args hargs => simp at hargs
  | name herr =>
    refine hstep ?_
    rw [Directory.readAnswer, nameError_eq_some herr]
  | noent hnot =>
    refine hstep ?_
    rw [Directory.readAnswer, hnot.nameError, Directory.lookup, h.find_of_notFound hnot]
    rfl
  | range hi hcap =>
    refine hstep ?_
    rw [Directory.readAnswer, hi.nameError, h.lookup_of_found hi]
    simp only [hlength, if_pos hcap]
  | mount hne => exact absurd hcount hne
  | io hfaulty => exact ⟨D, .io hfaulty (.before _), h⟩

theorem meets_unlink :
    Meets (Passes mnt.dev D (.unlink n)) (mcsfs1Unlink (some mnt) (some n.char))
      (fun r ↦ Leaves mnt.dev D (.unlink n) (.status r)) d := by
  have hmeets := meets_mcsfs1Unlink_of (C := Passes mnt.dev D (.unlink n)) hdev h.consistent
    (some n.char) fun i d' hi hsame hd' ↦
      ⟨_, .removed (h.find_of_found hi), (h.clear i).same hsame hd'⟩
  refine wp_mono hmeets (fun _ d' hpasses hends ↦ ?_) fun e d' hpasses hends ↦ ?_
  · obtain ⟨_, -, hshows⟩ := hpasses
    cases hends with
    | ok hi hd' =>
      refine ⟨_, .unlinkOk hi.nameError (h.find_of_found hi), (h.clear _).same ?_
        hshows.consistent⟩
      rw [hd']
      exact h.consistent.sameFiles_unlink hi.live
  · cases hends with
    | name herr => exact ⟨D, .name (nameError_eq_some herr), h⟩
    | noent hnot => exact ⟨D, .unlinkNoent hnot.nameError (h.find_of_notFound hnot), h⟩
    | io hfaulty => exact hpasses.io hfaulty

end Operations

/-! ## Runs -/

/-- Every call is a step of the directory, and goes through directories that the step allows. -/
theorem Shows.step {mnt : Mount} {s : Disk Block} (hdev : mnt.dev.Usable)
    (hcount : mnt.blockCount = mnt.dev.blockCount)
    (h : Shows mnt.dev.blockCount D (volumeOf s.block)) {c : FileCall}
    (hc : c.name.length ≠ maxName) :
    Leaves mnt.dev D c (Mcsfs1.step (some mnt) c.toCall s).1
        (Mcsfs1.step (some mnt) c.toCall s).2.block ∧
      Since (Passes mnt.dev D c) s (Mcsfs1.step (some mnt) c.toCall s).2 := by
  have hs : Passes mnt.dev D c s.block := ⟨D, .before c, h⟩
  cases c with
  | create n => exact ((meets_create hdev h hc).since hs).symm
  | write n buf len => exact ((meets_write hdev h buf len).since hs).symm
  | read n cap => exact ((meets_read hdev h hcount cap).since hs).symm
  | unlink n => exact ((meets_unlink hdev h).since hs).symm

theorem shows_of_mounted {dev : Blkdev} {s s₀ s₁ : Disk Block} {mnt : Mount}
    (hformat : (mcsfs1Format (some dev)).run s = .ok () s₀)
    (hmount : (mcsfs1Mount (some dev)).run s₀.fresh = .ok mnt s₁) :
    mnt.dev = dev ∧ dev.Usable ∧ mnt.blockCount = dev.blockCount ∧
      Shows dev.blockCount Directory.empty (volumeOf s₁.block) := by
  obtain ⟨hdev, hformatted⟩ := formatted_of_run hformat
  obtain ⟨rfl, -, hsame, -⟩ := mounted_of_run hmount
  refine ⟨rfl, hdev, rfl, ?_⟩
  rw [hsame]
  exact ⟨hformatted.intact, fun i _ ↦ hformatted.empty i, nofun, nofun⟩

end Mcsfs1

end Mcsos
