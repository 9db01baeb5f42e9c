import Mcsos.Kmem.Blocks

/-!
# Words that look like a header

`kmem_free_checked` takes a word `KMEM_MAGIC` for the start of a header. `Unforged` says that no
payload, of an allocated or a free block, has this word at an aligned address; inside of a header it
stands at the start only, since the field `free` is 0 or 1 and `prev` is an aligned pointer. Then
the word tells the headers from everything else in the heap (`Tiled.at_of_magic`).

The header of a block that is merged into the one before it becomes part of a payload. The word is
erased there, and the rest of the header still does not look like one.
-/

namespace Mcsos

namespace Kmem

open Tiling

variable {s : State} {m m' : Mem} {b c d : Blk} {pre post bs : List Blk} {a x lo hi : ℕ}

/-- No aligned word between two addresses is `KMEM_MAGIC`. -/
def Clean (m : Mem) (lo hi : ℕ) : Prop :=
  ∀ w, 16 ∣ w → lo ≤ w → w + 8 ≤ hi → m.load 8 w ≠ kmemMagic

theorem Clean.congr {lo' hi' : ℕ} (h : Clean m lo hi) (hlo : lo ≤ lo') (hhi : hi' ≤ hi)
    (hsame : ∀ i, lo' ≤ i → i < hi' → m' i = m i) : Clean m' lo' hi' := by
  intro w hw hge hle
  rw [Mem.load_congr fun i hi hlt ↦ hsame i (by omega) (by omega)]
  exact h w hw (by omega) (by omega)

/-- No payload of the blocks has an aligned word `KMEM_MAGIC`. -/
def Unforged (m : Mem) (a : ℕ) (bs : List Blk) : Prop :=
  ∀ x d, At Blk.width a bs x d → Clean m (x + headerSize) (x + d.width)

theorem unforged_cons : Unforged m a (b :: bs) ↔
    Clean m (a + headerSize) (a + b.width) ∧ Unforged m (a + b.width) bs := by
  constructor
  · exact fun h ↦ ⟨h a b (at_cons.mpr (.inl ⟨rfl, rfl⟩)),
      fun x d hx ↦ h x d (at_cons.mpr (.inr hx))⟩
  · rintro ⟨hb, hbs⟩ x d hx
    rcases at_cons.mp hx with ⟨rfl, rfl⟩ | hx
    · exact hb
    · exact hbs x d hx

theorem unforged_append : Unforged m a (pre ++ post) ↔
    Unforged m a pre ∧ Unforged m (a + extent Blk.width pre) post := by
  constructor
  · exact fun h ↦ ⟨fun x d hx ↦ h x d (at_append.mpr (.inl hx)),
      fun x d hx ↦ h x d (at_append.mpr (.inr hx))⟩
  · rintro ⟨hpre, hpost⟩ x d hx
    rcases at_append.mp hx with hx | hx
    · exact hpre x d hx
    · exact hpost x d hx

theorem Unforged.congr (h : Unforged m a bs)
    (hsame : ∀ i, a + headerSize ≤ i → i < a + extent Blk.width bs → m' i = m i) :
    Unforged m' a bs := by
  intro x d hx
  have hle := hx.le
  have hend := hx.end_le
  exact (h x d hx).congr le_rfl le_rfl fun i hi hlt ↦ hsame i (by omega) (by omega)

/-! ## The changes of the list -/

theorem Tiled.unforged_set (h : Tiled s (pre ++ b :: post)) {f : Field} {v : ℕ} {free : Bool}
    (hclean : Unforged s.mem s.heapBase (pre ++ b :: post)) :
    Unforged (set s.mem (place s pre) f v) s.heapBase (pre ++ ⟨b.size, free⟩ :: post) := by
  have hlt := h.place_lt
  have hwidth : (⟨b.size, free⟩ : Blk).width = b.width := rfl
  have hsame : ∀ i, i < place s pre ∨ place s pre + headerSize ≤ i →
      set s.mem (place s pre) f v i = s.mem i := fun i hi ↦ set_of_notMem (by omega) hi
  rw [unforged_append, unforged_cons] at hclean ⊢
  obtain ⟨hpre, hb, hpost⟩ := hclean
  rw [hwidth]
  have hbwidth := headerSize_le_width b
  refine ⟨hpre.congr fun i _ hi ↦ hsame i (.inl hi),
    hb.congr le_rfl le_rfl fun i hi _ ↦ hsame i (.inr hi),
    hpost.congr fun i hi _ ↦ hsame i (.inr ?_)⟩
  rw [place]
  omega

theorem Tiled.unforged_cut (h : Tiled s (pre ++ b :: post)) {w : ℕ}
    (hsize : w + headerSize < b.size)
    (hclean : Unforged s.mem s.heapBase (pre ++ b :: post)) :
    Unforged (cutBlock s.mem (place s pre) (place s pre + headerSize + w) w w) s.heapBase
      (pre ++ ⟨w, b.free⟩ :: ⟨b.size - w - headerSize, true⟩ :: post) := by
  have hlt := h.place_lt
  have hnext := h.next_apart
  have hwidth : b.width = headerSize + b.size := rfl
  have hfirst : (⟨w, b.free⟩ : Blk).width = headerSize + w := rfl
  have hsecond : (⟨b.size - w - headerSize, true⟩ : Blk).width =
      headerSize + (b.size - w - headerSize) := rfl
  have hplace : s.heapBase + extent Blk.width pre = place s pre := rfl
  have hsame : ∀ i, i < place s pre ∨ place s pre + headerSize ≤ i ∧
      i < place s pre + headerSize + w ∨ place s pre + headerSize + w + headerSize ≤ i ∧
      i < place s pre + b.width ∨ place s pre + b.width + headerSize ≤ i →
      cutBlock s.mem (place s pre) (place s pre + headerSize + w) w w i = s.mem i := fun i hi ↦
    cutBlock_of_notMem (by omega) (by omega)
      (hnext.imp_right fun ⟨hz, hle⟩ ↦ ⟨by omega, by omega⟩) (by omega)
  rw [unforged_append, unforged_cons, hplace] at hclean
  obtain ⟨hpre, hb, hpost⟩ := hclean
  rw [unforged_append, unforged_cons, unforged_cons, hplace, hfirst, hsecond]
  refine ⟨hpre.congr fun i _ hi ↦ hsame i (.inl hi),
    hb.congr le_rfl (by omega) fun i _ _ ↦ hsame i (by omega),
    hb.congr (by omega) (by omega) fun i _ _ ↦ hsame i (by omega), ?_⟩
  have hend : place s pre + (headerSize + w) + (headerSize + (b.size - w - headerSize)) =
      place s pre + b.width := by omega
  rw [hend]
  exact hpost.congr fun i _ _ ↦ hsame i (by omega)

theorem load_ne_magic_of_free (ha : a + headerSize ≤ 2 ^ 64) (hfree : get m a .free ≤ 1) :
    m.load 8 (a + 16) ≠ kmemMagic := by
  have hword : m.load 8 (a + 16) % 256 ^ 4 = get m a .free := by
    rw [get, wrap_field ha]
    exact Mem.load_add_mod m 4 4 (a + 16)
  rw [kmemMagic]
  omega

theorem load_ne_magic_of_prev (ha : a + headerSize ≤ 2 ^ 64) (hprev : 16 ∣ get m a .prev) :
    m.load 8 (a + 32) ≠ kmemMagic := by
  have hword : m.load 8 (a + 32) = get m a .prev := by
    rw [get, wrap_field ha]
    rfl
  rw [hword, kmemMagic]
  omega

theorem flag_le_one (free : Bool) : flag free ≤ 1 := by cases free <;> decide

/-- What is left of the second header does not look like one. -/
theorem Tiled.unforged_merge (h : Tiled s (pre ++ b :: c :: post))
    (hclean : Unforged s.mem s.heapBase (pre ++ b :: c :: post)) :
    Unforged (mergeNext s.mem (place s pre) (place s pre + b.width)) s.heapBase
      (pre ++ ⟨b.size + c.width, b.free⟩ :: post) := by
  have hcovers := h.place_covers
  have hend := h.end_lt
  have hdvd := h.place_dvd
  have hbdvd := h.block.dvd
  have hnext := h.shift.next_apart
  have hc : IsBlock s.mem s.heapEnd (place s pre) (place s pre + b.width) c := h.rest.1
  have hbwidth : b.width = headerSize + b.size := rfl
  have hcwidth : c.width = headerSize + c.size := rfl
  have hheader : headerSize = 48 := rfl
  have hplace : s.heapBase + extent Blk.width pre = place s pre := rfl
  rw [place_step] at hnext
  rw [extent_cons] at hcovers
  have hx : place s pre + headerSize ≤ place s pre + b.width := by omega
  have hlt : place s pre + b.width + headerSize ≤ 2 ^ 64 := by omega
  have hnext' : get s.mem (place s pre + b.width) .next = 0 ∨
      place s pre + b.width + headerSize ≤ get s.mem (place s pre + b.width) .next ∧
        get s.mem (place s pre + b.width) .next + headerSize ≤ 2 ^ 64 :=
    hnext.imp_right fun ⟨hz, hle⟩ ↦ ⟨by omega, by omega⟩
  have hsame : ∀ i, i < place s pre ∨ place s pre + headerSize ≤ i ∧ i < place s pre + b.width ∨
      place s pre + b.width + headerSize ≤ i ∧ i < place s pre + b.width + c.width ∨
      place s pre + b.width + c.width + headerSize ≤ i →
      mergeNext s.mem (place s pre) (place s pre + b.width) i = s.mem i := fun i hi ↦
    mergeNext_of_notMem hx hlt hnext' (by omega)
  obtain ⟨hmagic, hfree, hprev⟩ := get_mergeNext_second hx hlt hnext'
  generalize mergeNext s.mem (place s pre) (place s pre + b.width) = m at hsame hmagic hfree hprev ⊢
  rw [unforged_append, unforged_cons, unforged_cons, hplace] at hclean
  obtain ⟨hpre, hb, hcc, hpost⟩ := hclean
  rw [unforged_append, unforged_cons, hplace, width_merged, ← Nat.add_assoc]
  refine ⟨hpre.congr fun i _ hi ↦ hsame i (.inl hi), ?_,
    hpost.congr fun i _ _ ↦ hsame i (by omega)⟩
  have hb' : Clean m (place s pre + headerSize) (place s pre + b.width) :=
    hb.congr le_rfl le_rfl fun i _ _ ↦ hsame i (by omega)
  have hcc' : Clean m (place s pre + b.width + headerSize) (place s pre + b.width + c.width) :=
    hcc.congr le_rfl le_rfl fun i _ _ ↦ hsame i (by omega)
  -- A word lies in the first payload, is one of the three of the old header, or lies behind it.
  intro w hw hge hle
  have hcases : w + 8 ≤ place s pre + b.width ∨ w = place s pre + b.width ∨
      w = place s pre + b.width + 16 ∨ w = place s pre + b.width + 32 ∨
      place s pre + b.width + headerSize ≤ w := by omega
  rcases hcases with hlow | rfl | rfl | rfl | hhigh
  · exact hb' w hw hge hlow
  · intro hword
    have hzero : m.load 8 (place s pre + b.width) = 0 := by
      rw [get, wrap_field hlt] at hmagic
      exact hmagic
    rw [hzero] at hword
    exact absurd hword (by decide)
  · refine load_ne_magic_of_free hlt ?_
    rw [hfree, hc.free]
    exact flag_le_one c.free
  · refine load_ne_magic_of_prev hlt ?_
    rw [hprev]
    exact Nat.dvd_zero 16
  · exact hcc' w hw hhigh hle

/-! ## Recognising headers -/

theorem Tiled.before_dvd (h : Tiled s (pre ++ b :: post)) : 16 ∣ before s pre := by
  rcases List.eq_nil_or_concat' pre with rfl | ⟨pre, c, rfl⟩
  · exact Nat.dvd_zero 16
  · rw [before_step]
    rw [List.append_assoc, List.singleton_append] at h
    exact h.place_dvd

/-- An aligned word `KMEM_MAGIC` of the heap is the start of a header. -/
theorem Tiled.at_of_magic (h : Tiled s bs) (hclean : Unforged s.mem s.heapBase bs) (hdvd : 16 ∣ x)
    (hlo : s.heapBase ≤ x) (hhi : x < s.heapEnd) (hmagic : get s.mem x .magic = kmemMagic) :
    ∃ d, At Blk.width s.heapBase bs x d := by
  have hcovers := h.covers
  have hend := h.end_lt
  obtain ⟨y, d, hy, hle, hlt⟩ : ∃ y d, At Blk.width s.heapBase bs y d ∧ y ≤ x ∧ x < y + d.width :=
    exists_at hlo (hhi.trans_eq hcovers.symm)
  have hword : s.mem.load 8 x = kmemMagic := by
    have hwrap : wrap (x + Field.magic.offset) = x := wrap_of_lt (show x + 0 < 2 ^ 64 by omega)
    rw [get, hwrap] at hmagic
    exact hmagic
  have hpayload := hy
  obtain ⟨pre, post, rfl, rfl⟩ := hy
  have hplace : s.heapBase + extent Blk.width pre = place s pre := rfl
  have hblock := h.block
  have hdvd' := h.place_dvd
  have hsize := hblock.dvd
  have hheader : headerSize = 48 := rfl
  have hwidth : d.width = headerSize + d.size := rfl
  have hroom := h.place_lt
  rw [hplace] at hle hlt hpayload
  have hcases : x = place s pre ∨ x = place s pre + 16 ∨ x = place s pre + 32 ∨
      place s pre + headerSize ≤ x := by omega
  rcases hcases with rfl | rfl | rfl | hge
  · exact ⟨d, hpayload⟩
  · refine absurd hword (load_ne_magic_of_free (by omega) ?_)
    rw [hblock.free]
    exact flag_le_one d.free
  · refine absurd hword (load_ne_magic_of_prev (by omega) ?_)
    rw [hblock.prev]
    exact h.before_dvd
  · exact absurd hword (hclean _ d hpayload x hdvd hge (by omega))

end Kmem

end Mcsos
