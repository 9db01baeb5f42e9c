import Mathlib.Order.Interval.Finset.Nat
import Mcsos.Mcsfs1.Operations

/-!
# Writing a file

`mcsfs1_write` has two loops. The first gives the inode in memory the blocks it needs; each block is
marked on the disk before it is entered, and nothing on the disk points to it yet. The second writes
the data into the blocks of the inode. Only then the inode is written. `WriteEnds` is what the
operation may return and the volume it leaves.

Whether there is space is decided block by block: the first loop ends early when it needs one more
block than there are, and the blocks that it has marked by then stay marked (`RanOut`).
-/

namespace Mcsos

namespace Mcsfs1

open FaultyDisk

variable {bc : ℕ} {v : Volume} {b i : ℕ} {d : ℕ → Block}

/-! ## Space -/

/-- The data blocks that are not in use. -/
def Volume.freeBlocks (v : Volume) (bc : ℕ) : Finset ℕ :=
  (Finset.Ico dataStartLba bc).filter fun b ↦ v.blockUsed b = false

theorem Volume.mem_freeBlocks {a : ℕ} : a ∈ v.freeBlocks bc ↔ FreeBlock bc v a := by
  rw [freeBlocks, Finset.mem_filter, Finset.mem_Ico]
  exact ⟨fun h ↦ ⟨h.1.1, h.1.2, h.2⟩, fun h ↦ ⟨⟨h.start_le, h.lt_count⟩, h.unused⟩⟩

theorem FreeBlock.card_markBlock (hb : FreeBlock bc v b) :
    ((v.markBlock b true).freeBlocks bc).card + 1 = (v.freeBlocks bc).card := by
  have herase : (v.markBlock b true).freeBlocks bc = (v.freeBlocks bc).erase b := by
    ext a
    rw [Finset.mem_erase, Volume.freeBlocks, Volume.freeBlocks, Finset.mem_filter,
      Finset.mem_filter, Volume.blockUsed_markBlock]
    by_cases hab : a = b
    · simp [hab]
    · simp [hab]
  rw [herase, Finset.card_erase_add_one (Volume.mem_freeBlocks.mpr hb)]

/-- The number of entries of `direct[]` without a block, among the `k` ones from `j` on. -/
def Inode.missing (x : Inode) (j k : ℕ) : ℕ := (List.range' j k).countP fun l ↦ x.direct l = 0

theorem Inode.missing_succ (x : Inode) (j k : ℕ) :
    x.missing j (k + 1) = x.missing (j + 1) k + if x.direct j = 0 then 1 else 0 := by
  rw [missing, List.range'_succ, List.countP_cons, missing]
  simp only [decide_eq_true_eq]

theorem Inode.missing_setDirect {x : Inode} {j k : ℕ} (hjk : j + 1 + k ≤ directBlocks) :
    (x.setDirect j b).missing (j + 1) k = x.missing (j + 1) k := by
  refine List.countP_congr fun l hl ↦ ?_
  obtain ⟨hlo, hhi⟩ := List.mem_range'_1.mp hl
  rw [Inode.direct_setDirect_of_ne (by omega) (by omega)]

/-- The space was used up before `needed` blocks were found. What was left of it is marked; if there
was none, the disk is as before. -/
structure RanOut (bc : ℕ) (d : ℕ → Block) (needed : ℕ) (d' : ℕ → Block) : Prop where
  short : ((volumeOf d).freeBlocks bc).card < needed
  full : (volumeOf d').freeBlocks bc = ∅
  unchanged : (volumeOf d).freeBlocks bc = ∅ → d' = d

/-! ## The first loop -/

/-- An inode that may become the inode of entry `i` once its size is set. -/
structure Candidate (bc : ℕ) (v : Volume) (i : ℕ) (x : Inode) : Prop
    extends OwnsBlocks bc v.blockUsed x where
  mode : x.mode = modeFile
  clear : ∀ j, v.Live j → j ≠ i → ∀ b, x.Owns b → ¬(v.file j).Owns b

theorem Consistent.candidate (h : Consistent bc v) (hi : v.Live i) : Candidate bc v i (v.file i) :=
  ⟨(h.file i hi).toOwnsBlocks, (h.file i hi).mode, fun j hj hji ↦ h.disjoint i j hi hj hji.symm⟩

theorem owns_setDirect {x : Inode} {k a : ℕ} (hk : k < directBlocks) (h0 : x.direct k = 0)
    (hb : b ≠ 0) (hlt : b < 2 ^ 32) : (x.setDirect k b).Owns a ↔ a = b ∨ x.Owns a := by
  constructor
  · rintro ⟨ha, l, hl, rfl⟩
    by_cases hlk : l = k
    · rw [hlk, Inode.direct_setDirect_self hk hlt]
      exact .inl rfl
    · rw [Inode.direct_setDirect_of_ne hl hlk] at ha ⊢
      exact .inr ⟨ha, l, hl, rfl⟩
  · rintro (rfl | ⟨ha, l, hl, rfl⟩)
    · exact ⟨hb, k, hk, Inode.direct_setDirect_self hk hlt⟩
    · have hlk : l ≠ k := by
        rintro rfl
        exact ha h0
      exact ⟨ha, l, hl, Inode.direct_setDirect_of_ne hl hlk⟩

theorem Candidate.setDirect {x : Inode} {k : ℕ} (hx : Candidate bc v i x) (hv : Consistent bc v)
    (hb : FreeBlock bc v b) (hbc : bc ≤ 4096) (hk : k < directBlocks) (h0 : x.direct k = 0) :
    Candidate bc (v.markBlock b true) i (x.setDirect k b) := by
  have hge := hb.start_le
  have hlt := hb.lt_count
  rw [dataStartLba] at hge
  have howns : ∀ a, (x.setDirect k b).Owns a ↔ a = b ∨ x.Owns a := fun a ↦
    owns_setDirect hk h0 (by omega) (by omega)
  -- the block was free, so that the inode did not have it
  have hnew : ∀ l < directBlocks, x.direct l ≠ b := fun l hl heq ↦ by
    have hused := hx.used b ⟨by omega, l, hl, heq⟩
    rw [hb.unused] at hused
    cases hused
  refine ⟨⟨?_, ?_, ?_⟩, ?_, ?_⟩
  · intro a ha
    rcases (howns a).mp ha with rfl | ha
    · exact ⟨hb.start_le, hlt⟩
    · exact hx.range a ha
  · intro a ha
    rw [Volume.blockUsed_markBlock]
    rcases (howns a).mp ha with rfl | ha
    · exact if_pos rfl
    · rw [hx.used a ha, ite_self]
  · intro l hl m hm hne heq
    have hself := @Inode.direct_setDirect_self x k b hk (by omega)
    by_cases hlk : l = k
    · by_cases hmk : m = k
      · rw [hlk, hmk]
      · rw [hlk, hself, Inode.direct_setDirect_of_ne hm hmk] at heq
        exact absurd heq.symm (hnew m hm)
    · rw [Inode.direct_setDirect_of_ne hl hlk] at hne heq
      by_cases hmk : m = k
      · rw [hmk, hself] at heq
        exact absurd heq (hnew l hl)
      · rw [Inode.direct_setDirect_of_ne hm hmk] at heq
        exact hx.once l hl m hm hne heq
  · rw [Inode.mode_setDirect, hx.mode]
  · intro j hj hji a ha
    rcases (howns a).mp ha with rfl | ha
    · exact hv.not_owns_of_unused hb.unused hj
    · exact hx.clear j hj hji a ha

/-- The inode `x` has got blocks for its entries from `lo` to `hi`, and nothing else has changed on
the volume than their marks. -/
structure Allocated (bc : ℕ) (v : Volume) (i lo hi : ℕ) (x x' : Inode) (v' : Volume) : Prop where
  volume : v' = { v with blockUsed := fun b ↦ v.blockUsed b || decide (x'.Owns b) }
  candidate : Candidate bc v' i x'
  kept : ∀ k < directBlocks, x.direct k ≠ 0 → x'.direct k = x.direct k
  filled : ∀ k, lo ≤ k → k < hi → x'.direct k ≠ 0

theorem Allocated.owns {v' : Volume} {lo hi : ℕ} {x x' : Inode}
    (h : Allocated bc v i lo hi x x' v') (hx : x.Owns b) : x'.Owns b := by
  obtain ⟨hb, k, hk, rfl⟩ := hx
  exact ⟨hb, k, hk, h.kept k hk hb⟩

theorem Allocated.marked {v' : Volume} {lo hi : ℕ} {x x' : Inode}
    (h : Allocated bc v i lo hi x x' v') : v.Marked v' := by
  rw [h.volume]
  exact ⟨rfl, fun _ hn ↦ hn, fun _ hb ↦ Bool.or_eq_true_iff.mpr (.inl hb)⟩

theorem Allocated.refl {x : Inode} (hx : Candidate bc v i x) (lo : ℕ) :
    Allocated bc v i lo lo x x v := by
  refine ⟨?_, hx, fun _ _ _ ↦ rfl, fun k hlo hlt ↦ absurd hlt (by omega)⟩
  have hsame : (fun b ↦ v.blockUsed b || decide (x.Owns b)) = v.blockUsed := by
    funext b
    by_cases hb : x.Owns b
    · rw [hx.used b hb, Bool.true_or]
    · rw [decide_eq_false hb, Bool.or_false]
  rw [hsame]

theorem Allocated.skip {v' : Volume} {lo hi : ℕ} {x x' : Inode}
    (h : Allocated bc v i (lo + 1) hi x x' v') (hlo : lo < directBlocks) (h0 : x.direct lo ≠ 0) :
    Allocated bc v i lo hi x x' v' := by
  refine ⟨h.volume, h.candidate, h.kept, fun k hk hlt ↦ ?_⟩
  rcases Nat.eq_or_lt_of_le hk with rfl | hk
  · rwa [h.kept lo hlo h0]
  · exact h.filled k hk hlt

theorem Allocated.step {v' : Volume} {lo hi : ℕ} {x x' : Inode}
    (h : Allocated bc (v.markBlock b true) i (lo + 1) hi (x.setDirect lo b) x' v')
    (hb : b ≠ 0) (hlt : b < 2 ^ 32) (hlo : lo < directBlocks) (h0 : x.direct lo = 0) :
    Allocated bc v i lo hi x x' v' := by
  have hself := @Inode.direct_setDirect_self x lo b hlo hlt
  have hnew : x'.direct lo = b := by
    rw [h.kept lo hlo (by rwa [hself]), hself]
  refine ⟨?_, h.candidate, fun k hk hne ↦ ?_, fun k hk hlt ↦ ?_⟩
  · have hmarks : (fun a ↦ (v.markBlock b true).blockUsed a || decide (x'.Owns a)) =
        fun a ↦ v.blockUsed a || decide (x'.Owns a) := by
      funext a
      rw [Volume.blockUsed_markBlock]
      split_ifs with hab
      · rw [decide_eq_true (show x'.Owns a from ⟨by omega, lo, hlo, by rw [hnew, hab]⟩),
          Bool.or_true, Bool.or_true]
      · rfl
    rw [h.volume, hmarks]
    rfl
  · have hne' : k ≠ lo := by
      rintro rfl
      exact hne h0
    have hsame := @Inode.direct_setDirect_of_ne x lo k b hk hne'
    rw [← hsame] at hne ⊢
    exact h.kept k hk hne
  · rcases Nat.eq_or_lt_of_le hk with rfl | hk
    · rwa [hnew]
    · exact h.filled k hk hlt

theorem wp_allocDirect {dev : Blkdev} {C : (ℕ → Block) → Prop} {err : Err → (ℕ → Block) → Prop}
    {ok : Inode → (ℕ → Block) → Prop} {x : Inode} {j k : ℕ} (hdev : dev.Usable)
    (hd : Intact dev d) (hC : ∀ d', (volumeOf d).Marked (volumeOf d') → C d')
    (hx : Candidate dev.blockCount (volumeOf d) i x) (hjk : j + k ≤ directBlocks)
    (hok : ∀ x' d', Allocated dev.blockCount (volumeOf d) i j (j + k) x x' (volumeOf d') →
      x.missing j k ≤ ((volumeOf d).freeBlocks dev.blockCount).card → ok x' d')
    (hnospc : ∀ used d', volumeOf d' = { volumeOf d with blockUsed := used } →
      RanOut dev.blockCount d (x.missing j k) d' → err .nospc d')
    (hio : ∀ d', Faulty dev.fails → err .io d') : wp C (allocDirect dev j k x) ok err d := by
  induction k generalizing j x d with
  | zero => exact wp_pure (hok x d (.refl hx j) (Nat.zero_le _))
  | succ k ih =>
    rw [x.missing_succ] at hok hnospc
    rw [allocDirect]
    split_ifs with h0
    · rw [if_pos h0] at hok hnospc
      refine wp_bind (wp_allocDataBlock hdev hC (fun b d1 hb hd1 ↦ ?_) (fun hnone ↦ ?_) hio)
      · have hge := hb.start_le
        have hlt := Nat.lt_of_lt_of_le hb.lt_count hdev.le_max
        have hcard := hb.card_markBlock
        have hmarked : (volumeOf d).Marked (volumeOf d1) := by
          rw [hd1]
          exact Volume.marked_markBlock _ b
        rw [dataStartLba] at hge
        rw [blockSize] at hlt
        rw [← hd1] at hcard
        have hmissing := @Inode.missing_setDirect b x j k (by omega)
        refine ih (hd.of_marked hmarked) (fun d' hd' ↦ hC d' (hmarked.trans hd')) ?_ (by omega)
          (fun x' d' h hspace ↦ hok x' d' ?_ ?_)
          fun used d' hd' hout ↦ hnospc used d' ?_ ⟨?_, hout.full, fun hempty ↦ ?_⟩
        · rw [hd1]
          exact hx.setDirect hd hb hdev.le_max (by omega) h0
        · rw [hd1, Nat.add_right_comm] at h
          exact h.step (by omega) (by omega) (by omega) h0
        · rw [hmissing] at hspace
          omega
        · rw [hd', hd1]
          rfl
        · have hshort := hout.short
          rw [hmissing] at hshort
          omega
        · -- a block was found, so that there was one
          rw [hempty, Finset.card_empty] at hcard
          omega
      · have hempty : (volumeOf d).freeBlocks dev.blockCount = ∅ :=
          Finset.eq_empty_of_forall_notMem fun a ha ↦ hnone a (Volume.mem_freeBlocks.mp ha)
        refine hnospc _ d rfl ⟨?_, hempty, fun _ ↦ rfl⟩
        rw [hempty, Finset.card_empty]
        exact Nat.succ_pos _
    · rw [if_neg h0, Nat.add_zero] at hok hnospc
      refine ih hd hC hx (by omega) (fun x' d' h hspace ↦ hok x' d' ?_ hspace) hnospc
      rw [Nat.add_right_comm] at h
      exact h.skip (by omega) h0

/-! ## The second loop -/

/-- The block of the data at index `k`: the bytes of the buffer that it holds, followed by zeros. -/
def chunkAt (buf : Mem) (len k : ℕ) : Block :=
  (Buf.zero 512).copyIn (fun t ↦ buf (min len (512 * k) + t)) (min (len - min len (512 * k)) 512)

theorem byte_chunkAt {buf : Mem} {len p : ℕ} (hp : p < len) :
    (chunkAt buf len (p / 512)).byte (p % 512) = buf p := by
  have hmod : p % 512 < 512 := Nat.mod_lt _ (by decide)
  have hdiv := Nat.div_add_mod p 512
  rw [chunkAt, Buf.byte_copyIn_of_lt (by omega) hmod, min_eq_right (by omega), hdiv]

/-- The data of the blocks of `x` from `lo` to `hi` has been written, and no other. -/
structure Fills (x : Inode) (buf : Mem) (len lo hi : ℕ) (before after : ℕ → Block) : Prop where
  filled : ∀ k, lo ≤ k → k < hi → after (x.direct k) = chunkAt buf len k
  other : ∀ b, (∀ k, lo ≤ k → k < hi → x.direct k ≠ b) → after b = before b

theorem Fills.refl (x : Inode) (buf : Mem) (len lo : ℕ) (data : ℕ → Block) :
    Fills x buf len lo lo data data :=
  ⟨fun _ hlo hlt ↦ absurd hlt (Nat.not_lt_of_le hlo), fun _ _ ↦ rfl⟩

theorem Fills.step {x : Inode} {buf : Mem} {len lo hi : ℕ} {after : ℕ → Block}
    (h : Fills x buf len (lo + 1) hi (v.setData (x.direct lo) (chunkAt buf len lo)).data after)
    (honce : ∀ l, lo < l → l < hi → x.direct l ≠ x.direct lo) (hlt : lo < hi) :
    Fills x buf len lo hi v.data after := by
  refine ⟨fun l hl hlt ↦ ?_, fun b hb ↦ ?_⟩
  · rcases Nat.eq_or_lt_of_le hl with rfl | hl
    · rw [h.other _ fun m hm hmt ↦ honce m hm hmt, Volume.data_setData, if_pos rfl]
    · exact h.filled l hl hlt
  · rw [h.other b fun m hm hmt ↦ hb m (Nat.le_of_succ_le hm) hmt, Volume.data_setData,
      if_neg (hb lo le_rfl hlt).symm]

theorem wp_writeBlocks {dev : Blkdev} {C : (ℕ → Block) → Prop} {err : Err → (ℕ → Block) → Prop}
    {ok : Unit → (ℕ → Block) → Prop} {x : Inode} {buf : Mem} {len j k written : ℕ}
    (hdev : dev.Usable)
    (hx : ∀ l, j ≤ l → l < j + k → dataStartLba ≤ x.direct l ∧ x.direct l < dev.blockCount)
    (honce : ∀ l, j ≤ l → l < j + k → ∀ m, j ≤ m → m < j + k → x.direct l = x.direct m → l = m)
    (hC : ∀ hi data d', j < hi → hi ≤ j + k → Fills x buf len j hi (volumeOf d).data data →
      volumeOf d' = { volumeOf d with data := data } → C d')
    (hok : ∀ data d', Fills x buf len j (j + k) (volumeOf d).data data →
      volumeOf d' = { volumeOf d with data := data } → ok () d')
    (hio : ∀ d', Faulty dev.fails → err .io d') (hwritten : written = min len (512 * j)) :
    wp C (writeBlocks dev x buf len j k written) ok err d := by
  induction k generalizing j d written with
  | zero => exact wp_pure (hok (volumeOf d).data d (.refl x buf len j _) rfl)
  | succ k ih =>
    obtain ⟨hge, hlt⟩ := hx j (by omega) (by omega)
    have hvol := volumeOf_update_data d hge (chunkAt buf len j)
    have hnext : min len (512 * j) + min (len - min len (512 * j)) 512 =
        min len (512 * (j + 1)) := by omega
    have hother : ∀ hi ≤ j + (k + 1), ∀ l, j < l → l < hi → x.direct l ≠ x.direct j :=
      fun hi hhi l hl hlt heq ↦
        absurd (honce l (by omega) (by omega) j (by omega) (by omega) heq) (by omega)
    rw [writeBlocks, blockSize, hwritten, ← chunkAt]
    refine wp_bind (wp_devWrite hdev hlt (hC (j + 1) _ _ (by omega) (by omega) ?_ hvol) ?_ (hio d))
    · exact Fills.step (.refl x buf len (j + 1) _) (hother _ (by omega)) (by omega)
    refine ih (fun l hl hlt ↦ hx l (by omega) (by omega))
      (fun l hl hlt m hm hmt ↦ honce l (by omega) (by omega) m (by omega) (by omega))
      (fun hi data d' hlo hhi hfills hd' ↦ ?_) (fun data d' hfills hd' ↦ ?_) hnext
    · rw [hvol] at hfills hd'
      exact hC hi data d' (by omega) (by omega)
        (hfills.step (hother hi (by omega)) (by omega)) hd'
    · rw [hvol] at hfills hd'
      refine hok data d' (Fills.step ?_ (hother _ le_rfl) (by omega)) hd'
      rwa [Nat.add_right_comm] at hfills

/-! ## `mcsfs1_write` -/

theorem owns_setSize {x : Inode} {len : ℕ} : (x.setSize len).Owns b ↔ x.Owns b := by
  constructor
  · rintro ⟨hb, k, hk, rfl⟩
    rw [Inode.direct_setSize hk] at hb ⊢
    exact ⟨hb, k, hk, rfl⟩
  · rintro ⟨hb, k, hk, rfl⟩
    exact ⟨hb, k, hk, Inode.direct_setSize hk⟩

/-- The file of entry `i` has got the inode `x` and the first `len` bytes of the buffer. -/
structure Wrote (v : Volume) (i : ℕ) (buf : Mem) (len : ℕ) (x : Inode) (v' : Volume) : Prop where
  size : x.size = len
  kept : ∀ b, (v.file i).Owns b → x.Owns b
  volume : v' = Volume.setInode
    { v with blockUsed := fun b ↦ v.blockUsed b || decide (x.Owns b), data := v'.data }
    (v.entry i).ino x
  bytes : v'.bytesOf x = (List.range len).map buf
  other : ∀ b, ¬x.Owns b → v'.data b = v.data b

/-- How `mcsfs1_write` may end. -/
inductive WriteEnds (dev : Blkdev) (name buf : Option Mem) (len : ℕ) (d : ℕ → Block) :
    Except Err Unit → (ℕ → Block) → Prop
  | ok {i : ℕ} {x : Inode} {d' : ℕ → Block} (hi : Found d name i)
    (hx : Wrote (volumeOf d) i (bytesAt buf) len x (volumeOf d')) :
    WriteEnds dev name buf len d (.ok ()) d'
  | args (h : buf = none ∧ len ≠ 0) : WriteEnds dev name buf len d (.error .inval) d
  | range (h : len > directBlocks * blockSize) : WriteEnds dev name buf len d (.error .range) d
  | name {e : Err} (h : validName name = .error e) : WriteEnds dev name buf len d (.error e) d
  | noent (h : NotFound d name) : WriteEnds dev name buf len d (.error .noent) d
  /-- The blocks found before the space was used up stay marked. -/
  | nospc {used : ℕ → Bool} {d' : ℕ → Block} {i : ℕ} (hi : Found d name i)
    (hd' : volumeOf d' = { volumeOf d with blockUsed := used }) :
    WriteEnds dev name buf len d (.error .nospc) d'
  | io {d' : ℕ → Block} (h : Faulty dev.fails) : WriteEnds dev name buf len d (.error .io) d'

theorem Candidate.goodFile {x : Inode} {len : ℕ} (hx : Candidate bc v i x)
    (hlen : len ≤ directBlocks * blockSize) (hfilled : ∀ k < neededBlocks len, x.direct k ≠ 0) :
    GoodFile bc v.blockUsed (x.setSize len) := by
  have hneeded := neededBlocks_le hlen
  have hsize : (x.setSize len).size = len := by
    rw [directBlocks, blockSize] at hlen
    exact Inode.size_setSize (by omega)
  refine ⟨⟨?_, ?_, ?_⟩, ?_, ?_, ?_⟩
  · intro b hb
    exact hx.range b (owns_setSize.mp hb)
  · intro b hb
    exact hx.used b (owns_setSize.mp hb)
  · intro k hk l hl
    rw [Inode.direct_setSize hk, Inode.direct_setSize hl]
    exact hx.once k hk l hl
  · rw [Inode.mode_setSize, hx.mode]
  · rwa [hsize]
  · intro k hk
    rw [hsize] at hk
    rw [Inode.direct_setSize (by omega)]
    exact hfilled k hk

theorem Fills.bytesOf {x : Inode} {buf : Mem} {len : ℕ} {before : ℕ → Block}
    (h : Fills x buf len 0 (neededBlocks len) before v.data)
    (hlen : len ≤ directBlocks * blockSize) :
    v.bytesOf (x.setSize len) = (List.range len).map buf := by
  have hneeded := neededBlocks_le hlen
  have hsize : (x.setSize len).size = len := by
    rw [directBlocks, blockSize] at hlen
    exact Inode.size_setSize (by omega)
  rw [Volume.bytesOf, hsize]
  refine List.map_congr_left fun p hp ↦ ?_
  rw [List.mem_range] at hp
  have hblock : p / 512 < neededBlocks len := by
    rw [neededBlocks]
    omega
  rw [Volume.byteAt, Inode.direct_setSize (by omega), h.filled _ (Nat.zero_le _) hblock,
    byte_chunkAt hp]

theorem Allocated.wrote {x : Inode} {buf : Mem} {len : ℕ} {v₁ v₂ v₃ : Volume}
    (hx : Allocated bc v i 0 (neededBlocks len) (v.file i) x v₁)
    (hfills : Fills x buf len 0 (neededBlocks len) v₁.data v₂.data)
    (hv₂ : v₂ = { v₁ with data := v₂.data })
    (hv₃ : v₃ = v₂.setInode (v.entry i).ino (x.setSize len))
    (hlen : len ≤ directBlocks * blockSize) : Wrote v i buf len (x.setSize len) v₃ := by
  have hneeded := neededBlocks_le hlen
  have hdata : v₃.data = v₂.data := by
    rw [hv₃]
    rfl
  have hmarks : (fun b ↦ v.blockUsed b || decide ((x.setSize len).Owns b)) =
      fun b ↦ v.blockUsed b || decide (x.Owns b) := by
    funext b
    rw [decide_eq_decide.mpr owns_setSize]
  refine ⟨?_, ?_, ?_, ?_, ?_⟩
  · rw [directBlocks, blockSize] at hlen
    exact Inode.size_setSize (by omega)
  · intro b hb
    exact owns_setSize.mpr (hx.owns hb)
  · rw [hmarks, hdata, hv₃, hv₂, hx.volume]
  · rw [← hdata] at hfills
    exact hfills.bytesOf hlen
  · intro b hb
    rw [hdata, hfills.other b fun k _ hk heq ↦ hb (owns_setSize.mpr ?_), hx.volume]
    exact ⟨heq ▸ hx.filled k (Nat.zero_le k) hk, k, by omega, heq⟩

/-- `mcsfs1_write` from the point where the inode number is known. -/
def writeFile (dev : Blkdev) (buf : Option Mem) (len ino : ℕ) : FsM Unit := do
  let inode ← readInode dev ino
  failIf (inode.mode ≠ modeFile) .isdir
  let blocksNeeded := if blocksFor len = 0 then 1 else blocksFor len
  let inode ← allocDirect dev 0 blocksNeeded inode
  writeBlocks dev inode (bytesAt buf) len 0 blocksNeeded 0
  writeInode dev ino (inode.setSize len)
  devFlush dev

theorem mcsfs1Write_eq (mnt : Mount) (name buf : Option Mem) (len : ℕ) :
    mcsfs1Write (some mnt) name buf len = (do
      failIf (buf.isNone ∧ len ≠ 0) .inval
      failIf (len > directBlocks * blockSize) .range
      let (_, ino) ← findDirent mnt.dev name
      writeFile mnt.dev buf len ino) := rfl

/-- A volume while the data of the file of entry `i` is written: its inode on the disk is the old
one, and the first `k` blocks that the new one will have are written. -/
structure Torn (bc : ℕ) (v : Volume) (i : ℕ) (buf : Mem) (len k : ℕ) (x : Inode) (v' : Volume) :
    Prop where
  allocated : Allocated bc v i 0 (neededBlocks len) (v.file i) x { v' with data := v.data }
  le_needed : k ≤ neededBlocks len
  needed_le : neededBlocks len ≤ directBlocks
  fills : Fills x buf len 0 k v.data v'.data

theorem wp_writeFile_of {dev : Blkdev} {buf : Option Mem} {len : ℕ} {C : (ℕ → Block) → Prop}
    {ok : Unit → (ℕ → Block) → Prop} {err : Err → (ℕ → Block) → Prop} (hdev : dev.Usable)
    (hd : Intact dev d) (hlen : len ≤ directBlocks * blockSize) (hlive : (volumeOf d).Live i)
    (hmarked : ∀ d', (volumeOf d).Marked (volumeOf d') → C d')
    (htorn : ∀ k x d', Torn dev.blockCount (volumeOf d) i (bytesAt buf) len k x (volumeOf d') →
      Intact dev d' → C d')
    (hwrote : ∀ x d', Wrote (volumeOf d) i (bytesAt buf) len x (volumeOf d') → Intact dev d' →
      C d')
    (hok : ∀ x d', Wrote (volumeOf d) i (bytesAt buf) len x (volumeOf d') →
      ((volumeOf d).file i).missing 0 (neededBlocks len) ≤
        ((volumeOf d).freeBlocks dev.blockCount).card → ok () d')
    (hnospc : ∀ used d', volumeOf d' = { volumeOf d with blockUsed := used } →
      RanOut dev.blockCount d (((volumeOf d).file i).missing 0 (neededBlocks len)) d' →
      err .nospc d')
    (hio : ∀ d', Faulty dev.fails → err .io d') :
    wp C (writeFile dev buf len ((volumeOf d).entry i).ino) ok err d := by
  have hneeded := neededBlocks_le hlen
  have hentry := hd.entry i hlive
  refine wp_bind (wp_readFile hdev hd hlive ?_ (hio d))
  refine wp_bind (wp_failIf (fun hmode ↦ absurd (hd.file i hlive).mode hmode) fun _ ↦ ?_)
  rw [neededBlocks_eq hlen]
  refine wp_bind (wp_allocDirect hdev hd hmarked (hd.candidate hlive) (by omega)
    (fun x d1 hx hspace ↦ ?_) hnospc hio)
  rw [Nat.zero_add] at hx
  have hfilled : ∀ k < neededBlocks len, x.direct k ≠ 0 := fun k hk ↦ hx.filled k (Nat.zero_le k) hk
  have hd1 : Intact dev d1 := hd.of_marked hx.marked
  refine wp_bind (wp_writeBlocks hdev (fun k _ hk ↦ ?_) (fun k _ hk l _ hl heq ↦ ?_)
    (fun k data d2 _ hk hfills hd2 ↦ ?_) (fun data d2 hfills hd2 ↦ ?_) hio ?_)
  · exact hx.candidate.range _ ⟨hfilled k (by omega), k, by omega, rfl⟩
  · exact hx.candidate.once k (by omega) l (by omega) (hfilled k (by omega)) heq
  · have hdata : (volumeOf d1).data = (volumeOf d).data := by rw [hx.volume]
    refine htorn k x d2 ⟨?_, by omega, hneeded, ?_⟩ ?_
    · rw [hd2, ← hdata]
      exact hx
    · rw [hd2, ← hdata]
      exact hfills
    · rw [Intact, hd2]
      exact hd1.setAllData data
  · rw [Nat.zero_add] at hfills
    have hvol : volumeOf d2 = { volumeOf d with
        blockUsed := fun b ↦ (volumeOf d).blockUsed b || decide (x.Owns b), data := data } := by
      rw [hd2, hx.volume]
    have hcandidate : Candidate dev.blockCount (volumeOf d2) i x := by
      rw [hd2]
      exact ⟨hx.candidate.toOwnsBlocks, hx.candidate.mode, hx.candidate.clear⟩
    have hentries : (volumeOf d2).entry = (volumeOf d).entry := by rw [hvol]
    have hlive2 : (volumeOf d2).Live i := by rwa [Volume.Live, hentries]
    have hd2' : Intact dev d2 := by
      rw [Intact, hd2]
      exact hd1.setAllData data
    have hset := hd2'.setInode_live hlive2 (hcandidate.goodFile hlen hfilled)
      fun j hj hji b hb ↦ hcandidate.clear j hj hji b (owns_setSize.mp hb)
    rw [hentries] at hset
    have hwrites : ∀ d3, volumeOf d3 = (volumeOf d2).setInode ((volumeOf d).entry i).ino
        (x.setSize len) → Wrote (volumeOf d) i (bytesAt buf) len (x.setSize len) (volumeOf d3) :=
      fun d3 hd3 ↦ hx.wrote (by rwa [hd2]) (by rw [hd2]) hd3 hlen
    refine wp_bind (wp_writeInode hdev (Nat.le_of_succ_le hentry.ino_ge) hentry.ino_le
      (fun d3 hd3 ↦ hwrote _ d3 (hwrites d3 hd3) (by rwa [Intact, hd3]))
      (fun d3 hd3 ↦ wp_devFlush hdev (hok _ d3 (hwrites d3 hd3) hspace) (hio d3)) (hio d2))
  · rw [Nat.mul_zero, Nat.min_zero]

theorem wp_writeFile {dev : Blkdev} {buf : Option Mem} {len : ℕ} {ok : Unit → (ℕ → Block) → Prop}
    {err : Err → (ℕ → Block) → Prop} (hdev : dev.Usable) (hd : Intact dev d)
    (hlen : len ≤ directBlocks * blockSize) (hlive : (volumeOf d).Live i)
    (hok : ∀ x d', Wrote (volumeOf d) i (bytesAt buf) len x (volumeOf d') →
      ((volumeOf d).file i).missing 0 (neededBlocks len) ≤
        ((volumeOf d).freeBlocks dev.blockCount).card → ok () d')
    (hnospc : ∀ used d', volumeOf d' = { volumeOf d with blockUsed := used } →
      RanOut dev.blockCount d (((volumeOf d).file i).missing 0 (neededBlocks len)) d' →
      err .nospc d')
    (hio : ∀ d', Faulty dev.fails → err .io d') :
    wp (Intact dev) (writeFile dev buf len ((volumeOf d).entry i).ino) ok err d :=
  wp_writeFile_of hdev hd hlen hlive (fun _ h ↦ hd.of_marked h) (fun _ _ _ _ h ↦ h)
    (fun _ _ _ h ↦ h) hok hnospc hio

/-- How `mcsfs1_write` may end. First blocks are marked, then the data is written, then the
inode. -/
theorem meets_mcsfs1Write_of {mnt : Mount} {C : (ℕ → Block) → Prop} (hdev : mnt.dev.Usable)
    (hd : Intact mnt.dev d) (name buf : Option Mem) (len : ℕ)
    (hmarked : ∀ d', (volumeOf d).Marked (volumeOf d') → C d')
    (htorn : ∀ i k x d', Found d name i →
      Torn mnt.dev.blockCount (volumeOf d) i (bytesAt buf) len k x (volumeOf d') →
      Intact mnt.dev d' → C d')
    (hwrote : ∀ i x d', Found d name i →
      Wrote (volumeOf d) i (bytesAt buf) len x (volumeOf d') → Intact mnt.dev d' → C d') :
    Meets C (mcsfs1Write (some mnt) name buf len) (WriteEnds mnt.dev name buf len d) d := by
  refine wp_bind (wp_failIf (fun hargs ↦ .args ?_) fun _ ↦ ?_)
  · rwa [Option.isNone_iff_eq_none] at hargs
  refine wp_bind (wp_failIf (fun hrange ↦ .range hrange) fun hrange ↦ ?_)
  refine wp_bind (wp_findDirent hdev (fun i hi ↦ ?_) (fun h ↦ .noent h) (fun e he ↦ .name he)
    fun h ↦ .io h)
  exact wp_writeFile_of hdev hd (Nat.le_of_not_lt hrange) hi.live hmarked
    (fun k x d' ↦ htorn i k x d' hi) (fun x d' ↦ hwrote i x d' hi) (fun x d' hx _ ↦ .ok hi hx)
    (fun used d' hd' _ ↦ .nospc hi hd') fun d' h ↦ .io h

theorem meets_mcsfs1Write {mnt : Mount} (hdev : mnt.dev.Usable) (hd : Intact mnt.dev d)
    (name buf : Option Mem) (len : ℕ) :
    Meets (Intact mnt.dev) (mcsfs1Write (some mnt) name buf len)
      (WriteEnds mnt.dev name buf len d) d :=
  meets_mcsfs1Write_of hdev hd name buf len (fun _ h ↦ hd.of_marked h) (fun _ _ _ _ _ _ h ↦ h)
    fun _ _ _ _ _ h ↦ h

end Mcsfs1

end Mcsos
