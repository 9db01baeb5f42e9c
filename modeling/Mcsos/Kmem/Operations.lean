import Mcsos.Kmem.Words
import Mathlib.Data.List.Chain

/-!
# The operations of the heap

What each function of `kmem.c` does to the list of blocks. `UsedAt` says which blocks are allocated,
and `Edited` that a change of the list keeps these blocks and does not touch their payloads; the
coalescing of free blocks is such a change. `Merged` says that no free block is left beside another:
an allocated block separates the blocks before it from those behind it (`merged_used`), so that
`kmem_free_checked` has to look at the neighbours of the freed block only.
-/

namespace Mcsos

namespace Kmem

open Tiling

variable {s : State} {m m' : Mem} {b c d : Blk} {pre mid post bs bs' : List Blk} {a x i : ℕ}

/-! ## Allocated blocks -/

/-- The allocated block `d` starts at `x`. -/
def UsedAt (base : ℕ) (bs : List Blk) (x : ℕ) (d : Blk) : Prop :=
  At Blk.width base bs x d ∧ d.free = false

/-- A byte of the payload of an allocated block. -/
def UsedByte (base : ℕ) (bs : List Blk) (i : ℕ) : Prop :=
  ∃ x d, UsedAt base bs x d ∧ x + headerSize ≤ i ∧ i < x + d.width

theorem usedAt_append : UsedAt a (pre ++ post) x d ↔
    UsedAt a pre x d ∨ UsedAt (a + extent Blk.width pre) post x d := by
  rw [UsedAt, at_append, or_and_right]
  exact Iff.rfl

theorem usedAt_cons : UsedAt a (c :: bs) x d ↔
    (x = a ∧ d = c ∧ c.free = false) ∨ UsedAt (a + c.width) bs x d := by
  rw [UsedAt, at_cons, or_and_right]
  refine or_congr ⟨?_, ?_⟩ Iff.rfl
  · rintro ⟨⟨rfl, rfl⟩, hfree⟩
    exact ⟨rfl, rfl, hfree⟩
  · rintro ⟨rfl, rfl, hfree⟩
    exact ⟨⟨rfl, rfl⟩, hfree⟩

theorem not_usedAt_of_free (h : ∀ c ∈ mid, c.free = true) : ¬UsedAt a mid x d := by
  rintro ⟨hat, hfree⟩
  rw [h d hat.mem] at hfree
  cases hfree

theorem usedAt_exchange (old new : List Blk)
    (hextent : extent Blk.width new = extent Blk.width old) (hold : ∀ c ∈ old, c.free = true)
    (hnew : ∀ c ∈ new, c.free = true) :
    UsedAt a (pre ++ (new ++ post)) x d ↔ UsedAt a (pre ++ (old ++ post)) x d := by
  rw [usedAt_append, usedAt_append, usedAt_append, usedAt_append, hextent]
  exact or_congr Iff.rfl (or_congr (iff_of_false (not_usedAt_of_free hnew)
    (not_usedAt_of_free hold)) Iff.rfl)

/-- The payloads of allocated blocks lie outside of the free blocks `mid` and the header behind
them. -/
theorem UsedByte.outside (mid : List Blk) (hmid : ∀ c ∈ mid, c.free = true)
    (h : UsedByte s.heapBase (pre ++ (mid ++ post)) i) :
    i < place s pre ∨ place s pre + extent Blk.width mid + headerSize ≤ i := by
  obtain ⟨x, d, hused, hlo, hhi⟩ := h
  rcases usedAt_append.mp hused with hpre | hused
  · have hend := hpre.1.end_le
    rw [place]
    exact .inl (by omega)
  · rcases usedAt_append.mp hused with hfree | hpost
    · exact absurd hfree (not_usedAt_of_free hmid)
    · have hle := hpost.1.le
      rw [place]
      exact .inr (by omega)

/-- The list of blocks is changed; the allocated blocks stay, and so do their payloads. -/
structure Edited (s : State) (bs : List Blk) (m' : Mem) (bs' : List Blk) : Prop where
  tiled : Tiled { s with mem := m' } bs'
  used : ∀ x d, UsedAt s.heapBase bs' x d ↔ UsedAt s.heapBase bs x d
  frame : ∀ i, UsedByte s.heapBase bs i → m' i = s.mem i
  unforged : Unforged s.mem s.heapBase bs → Unforged m' s.heapBase bs'

theorem Tiled.edited (h : Tiled s bs) : Edited s bs s.mem bs :=
  ⟨h, fun _ _ ↦ Iff.rfl, fun _ _ ↦ rfl, id⟩

theorem Edited.usedByte (h : Edited s bs m' bs') :
    UsedByte s.heapBase bs' i ↔ UsedByte s.heapBase bs i :=
  exists_congr fun x ↦ exists_congr fun d ↦ and_congr (h.used x d) Iff.rfl

theorem Edited.trans {m'' : Mem} {bs'' : List Blk} (h : Edited s bs m' bs')
    (h' : Edited { s with mem := m' } bs' m'' bs'') : Edited s bs m'' bs'' where
  tiled := h'.tiled
  used x d := (h'.used x d).trans (h.used x d)
  frame i hi := (h'.frame i (h.usedByte.mpr hi)).trans (h.frame i hi)
  unforged hclean := h'.unforged (h.unforged hclean)

/-! ## Free neighbours -/

/-- No two neighbouring blocks are free. -/
def Merged (bs : List Blk) : Prop :=
  (bs.map Blk.free).IsChain fun free free' ↦ ¬(free = true ∧ free' = true)

theorem merged_singleton (b : Blk) : Merged [b] := List.isChain_singleton _

/-- An allocated block separates what is before it from what is behind it. -/
theorem merged_used (hb : b.free = false) :
    Merged (pre ++ b :: post) ↔ Merged pre ∧ Merged post := by
  rw [Merged, Merged, Merged, List.map_append, List.map_cons, hb, List.isChain_append,
    List.isChain_cons]
  constructor
  · rintro ⟨hpre, ⟨-, hpost⟩, -⟩
    exact ⟨hpre, hpost⟩
  · rintro ⟨hpre, hpost⟩
    refine ⟨hpre, ⟨fun free _ h ↦ absurd h.1 Bool.false_ne_true, hpost⟩,
      fun free _ free' hhead h ↦ ?_⟩
    rw [List.head?_cons, Option.mem_some_iff] at hhead
    rw [← hhead] at h
    exact absurd h.2 Bool.false_ne_true

theorem merged_append_cons :
    Merged (pre ++ b :: post) ↔ Merged (pre ++ [b]) ∧ Merged (b :: post) := by
  simp only [Merged, List.map_append, List.map_cons, List.map_nil]
  exact List.isChain_split

theorem Merged.left (h : Merged (pre ++ post)) : Merged pre := by
  rw [Merged, List.map_append] at h
  exact h.left_of_append

theorem Merged.right (h : Merged (pre ++ post)) : Merged post := by
  rw [Merged, List.map_append] at h
  exact h.right_of_append

theorem Merged.tail (h : Merged (b :: post)) : Merged post :=
  Merged.right (show Merged ([b] ++ post) from h)

theorem Merged.congr (h : Merged bs) (hflags : bs'.map Blk.free = bs.map Blk.free) :
    Merged bs' := by
  rwa [Merged, hflags]

/-! ## Headers and payloads -/

theorem notMem_header (hx : At Blk.width a bs x b) {y : ℕ} (hy : At Blk.width a bs y c)
    (hlo : y + headerSize ≤ i) (hhi : i < y + c.width) : i < x ∨ x + headerSize ≤ i := by
  have hwidth := headerSize_le_width b
  rcases hx.apart hy with ⟨rfl, -⟩ | hapart | hapart
  · exact .inr hlo
  · exact .inr (by omega)
  · exact .inl (by omega)

theorem at_place : At Blk.width s.heapBase (pre ++ b :: post) (place s pre) b :=
  ⟨pre, post, rfl, rfl⟩

theorem Tiled.congr (h : Tiled s bs)
    (hsame : ∀ x b, At Blk.width s.heapBase bs x b → ∀ i, x ≤ i → i < x + headerSize →
      m' i = s.mem i) : Tiled { s with mem := m' } bs := by
  refine ⟨h.initialized, h.head, h.base_pos, h.base_dvd, h.end_lt, h.nonempty, h.covers, ?_⟩
  refine h.laid.congr fun q x b hx hblock ↦ hblock.congr ?_ (hsame x b hx)
  have hend := hx.end_le
  have hcovers := h.covers
  have hlt := h.end_lt
  have hwidth := headerSize_le_width b
  omega

theorem frame_mark (h : Tiled s (pre ++ b :: post)) {v : ℕ} {f : Field}
    (hi : UsedByte s.heapBase (pre ++ b :: post) i) : set s.mem (place s pre) f v i = s.mem i := by
  obtain ⟨x, d, ⟨hx, -⟩, hlo, hhi⟩ := hi
  have hlt := h.place_lt
  exact set_of_notMem (by omega) (notMem_header at_place hx hlo hhi)

theorem Tiled.length_lt (h : Tiled s bs) : bs.length < rounds := by
  have hle : ∀ bs : List Blk, bs.length ≤ extent Blk.width bs := by
    intro bs
    induction bs with
    | nil => exact le_rfl
    | cons b bs ih =>
      have hwidth := headerSize_le_width b
      rw [headerSize] at hwidth
      rw [List.length_cons, extent_cons]
      omega
  have hcovers := h.covers
  have hend := h.end_lt
  have hlen := hle bs
  rw [rounds]
  omega

/-! ## `kmem_validate` -/

theorem validateFrom_null {k prev cursor : ℕ} : validateFrom s k prev cursor 0 = 0 := by
  rw [validateFrom.eq_def]
  exact if_pos rfl

theorem validateFrom_succ {k prev cursor cur : ℕ} (hcur : cur ≠ 0) :
    validateFrom s (k + 1) prev cursor cur =
      if cur ≠ cursor then -4
      else if cur < s.heapBase ∨ wrap (cur + headerSize) > s.heapEnd then -5
      else if get s.mem cur .magic ≠ kmemMagic then -6
      else if get s.mem cur .prev ≠ prev then -7
      else if get s.mem cur .size > sub s.heapEnd (kmemPayload cur) then -8
      else
        let cursor := kmemAlignUpPtr (wrap (kmemPayload cur + get s.mem cur .size)) kmemAlign
        if cursor = 0 ∨ cursor > s.heapEnd then -9
        else validateFrom s k cur cursor (get s.mem cur .next) := by
  rw [validateFrom.eq_def]
  exact if_neg hcur

theorem validateFrom_eq_zero {k : ℕ} (pre : List Blk) (h : Tiled s (pre ++ bs))
    (hk : bs.length ≤ k) :
    validateFrom s k (before s pre) (place s pre) (link s.heapEnd (place s pre)) = 0 := by
  induction bs generalizing pre k with
  | nil =>
    have hcovers := h.covers
    rw [List.append_nil] at hcovers
    rw [link, if_pos (show place s pre = s.heapEnd from hcovers), validateFrom_null]
  | cons b post ih =>
    have hb := h.block
    have hcovers := h.place_covers
    have hend := h.end_lt
    have hpos := h.place_pos
    have hdvd : 16 ∣ place s pre + b.width :=
      Nat.dvd_add h.place_dvd (Nat.dvd_add (by decide) hb.dvd)
    have hwidth : b.width = headerSize + b.size := rfl
    have hheader : headerSize = 48 := rfl
    have hbase : s.heapBase ≤ place s pre := Nat.le_add_right _ _
    obtain ⟨k, rfl⟩ : ∃ k', k = k' + 1 := ⟨k - 1, by rw [List.length_cons] at hk; omega⟩
    have hpayload : kmemPayload (place s pre) = place s pre + headerSize :=
      wrap_of_lt (by omega)
    have hcursor : kmemAlignUpPtr (wrap (kmemPayload (place s pre) +
        get s.mem (place s pre) .size)) kmemAlign = place s pre + b.width := by
      rw [hb.size, hpayload, Nat.add_assoc, ← hwidth, wrap_of_lt (by omega),
        alignUpPtr_of_dvd (by omega) hdvd]
    have hroom : ¬get s.mem (place s pre) .size > sub s.heapEnd (kmemPayload (place s pre)) := by
      rw [hb.size, hpayload, sub_of_le (by omega) hend]
      omega
    have hrest := ih (pre ++ [b]) h.shift (Nat.le_of_succ_le_succ hk)
    rw [before_step, place_step] at hrest
    rw [link, if_neg (by omega), validateFrom_succ hpos.ne', if_neg (not_not.mpr rfl),
      if_neg (by rw [wrap_of_lt (by omega)]; omega),
      if_neg (not_not.mpr hb.magic), if_neg (not_not.mpr hb.prev), if_neg hroom, hcursor]
    dsimp only
    rw [if_neg (by omega), hb.next]
    exact hrest

theorem Tiled.link_base (h : Tiled s bs) : link s.heapEnd (place s []) = s.head ∧
    s.heapBase < s.heapEnd := by
  obtain ⟨b, post, rfl⟩ := List.exists_cons_of_ne_nil h.nonempty
  have hcovers := h.covers
  have hwidth := headerSize_le_width b
  rw [headerSize] at hwidth
  rw [extent_cons] at hcovers
  have hplace : place s [] = s.heapBase := Nat.add_zero _
  rw [link, hplace, if_neg (by omega), h.head]
  exact ⟨rfl, by omega⟩

/-- A tiled heap passes `kmem_validate`, up to its bound on the number of blocks. -/
theorem Tiled.validate (h : Tiled s bs) (hlen : bs.length ≤ maxBlocks) : kmemValidate s = 0 := by
  obtain ⟨hlink, hlt⟩ := h.link_base
  have hpos := h.base_pos
  have hhead := h.head
  have hzero := validateFrom_eq_zero [] h hlen
  rw [hlink] at hzero
  rw [kmemValidate, if_neg, if_neg (not_not.mpr hhead)]
  · exact hzero
  · rintro (hinit | h0 | hle | h0)
    · exact absurd (hinit.symm.trans h.initialized) (by decide)
    all_goals omega

/-! ## Coalescing -/

theorem Tiled.edited_merge (h : Tiled s (pre ++ b :: c :: post)) (hb : b.free = true)
    (hc : c.free = true) :
    Edited s (pre ++ b :: c :: post) (mergeNext s.mem (place s pre) (place s pre + b.width))
      (pre ++ ⟨b.size + c.width, b.free⟩ :: post) := by
  have hmid : ∀ d ∈ [b, c], d.free = true := by
    intro d hd
    rcases List.mem_pair.mp hd with rfl | rfl
    · exact hb
    · exact hc
  have hextent : extent Blk.width [b, c] = b.width + c.width := by
    rw [extent_cons, extent_cons, extent_nil, Nat.add_zero]
  refine ⟨h.merge, fun x d ↦ ?_, fun i hi ↦ ?_, h.unforged_merge⟩
  · refine usedAt_exchange [b, c] [⟨b.size + c.width, b.free⟩] ?_ hmid ?_
    · rw [hextent, extent_cons, extent_nil, Nat.add_zero, width_merged]
    · intro d hd
      rw [List.mem_singleton.mp hd]
      exact hb
  · have hout := UsedByte.outside [b, c] hmid hi
    have hnext := h.shift.next_apart
    have hlt := h.place_lt
    have hcwidth := headerSize_le_width c
    have hbwidth : b.width = headerSize + b.size := rfl
    rw [place_step] at hnext
    rw [hextent] at hout
    have hcovers := h.place_covers
    have hend := h.end_lt
    rw [extent_cons] at hcovers
    exact mergeNext_of_notMem (by omega) (by omega)
      (hnext.imp_right fun ⟨hz, hle⟩ ↦ ⟨by omega, by omega⟩) (by omega)

theorem Tiled.coalesce {fuel : ℕ} (h : Tiled s (pre ++ b :: post)) (hb : b.free = true)
    (hfuel : post.length < fuel) : ∃ m' b' post',
      kmemCoalesceForward (place s pre) fuel s.mem = some m' ∧ b'.free = true ∧
        Edited s (pre ++ b :: post) m' (pre ++ b' :: post') ∧
        (Merged post → Merged (b' :: post')) ∧ post'.length ≤ post.length := by
  induction post generalizing s b fuel with
  | nil =>
    obtain ⟨fuel, rfl⟩ : ∃ k, fuel = k + 1 := ⟨fuel - 1, by omega⟩
    rcases h.next_eq with ⟨-, h0⟩ | ⟨hne, -⟩
    · refine ⟨s.mem, b, [], ?_, hb, h.edited, fun _ ↦ merged_singleton b, le_rfl⟩
      rw [kmemCoalesceForward, if_neg (fun hcond ↦ hcond.2.1 h0)]
    · exact absurd rfl hne
  | cons c post ih =>
    obtain ⟨fuel, rfl⟩ : ∃ k, fuel = k + 1 := ⟨fuel - 1, by rw [List.length_cons] at hfuel; omega⟩
    have hnext : get s.mem (place s pre) .next = place s pre + b.width := by
      rcases h.next_eq with ⟨hnil, -⟩ | ⟨-, hz, -⟩
      · cases hnil
      · exact hz
    have hc : IsBlock s.mem s.heapEnd (place s pre) (place s pre + b.width) c := h.rest.1
    have hpos := h.place_pos
    have hlt := h.place_lt
    have hwidth : b.width = headerSize + b.size := rfl
    rw [kmemCoalesceForward, hnext, hc.free]
    cases hfree : c.free with
    | false =>
      refine ⟨s.mem, b, c :: post, ?_, hb, h.edited, fun hmerged ↦ ?_, le_rfl⟩
      · exact if_neg fun hcond ↦ hcond.2.2 rfl
      · have hsplit : Merged ([b] ++ c :: post) :=
          (merged_used hfree).mpr ⟨merged_singleton b, hmerged.tail⟩
        exact hsplit
    | true =>
      have hexpected : kmemAlignUpPtr (wrap (kmemPayload (place s pre) +
          get s.mem (place s pre) .size)) kmemAlign = place s pre + b.width := by
        have hdvd : 16 ∣ place s pre + b.width :=
          Nat.dvd_add h.place_dvd (Nat.dvd_add (by decide) h.block.dvd)
        rw [h.block.size, kmemPayload, wrap_of_lt (show place s pre + headerSize < _ by omega),
          Nat.add_assoc, ← hwidth, wrap_of_lt (by omega), alignUpPtr_of_dvd (by omega) hdvd]
      have hmerge := h.edited_merge hb hfree
      rw [if_pos ⟨hpos.ne', by omega, by decide⟩, hexpected, if_neg (not_not.mpr rfl)]
      obtain ⟨m', b', post', hres, hb', hedited, hmerged, hlen⟩ := ih hmerge.tiled hb
        (Nat.lt_of_succ_lt_succ hfuel)
      exact ⟨m', b', post', hres, hb', hmerge.trans hedited, fun hm ↦ hmerged hm.tail,
        hlen.trans (Nat.le_succ _)⟩

/-! ## Splitting -/

theorem alignUpSize_header : kmemAlignUpSize headerSize kmemAlign = headerSize := by decide

/-- `kmem_split_if_useful` cuts a block if what is left has more than `KMEM_MIN_SPLIT` bytes. The
sum that it computes first must not wrap. -/
theorem Tiled.split_eq (h : Tiled s (pre ++ b :: post)) {w : ℕ} (hdvd : 16 ∣ w) (hpos : 0 < w)
    (hle : w ≤ b.size) (hw : w + headerSize + kmemMinSplit < 2 ^ 64) :
    kmemSplitIfUseful s (place s pre) w =
      if w + headerSize + kmemMinSplit < b.size then
        { s with mem := cutBlock s.mem (place s pre) (place s pre + headerSize + w) w w }
      else s := by
  have hlt := h.place_lt
  have hplace := h.place_pos
  have hcovers := h.place_covers
  have hend := h.end_lt
  have hwidth : b.width = headerSize + b.size := rfl
  have hmin : kmemMinSplit = 32 := rfl
  have hheader : headerSize = 48 := rfl
  have hpayload : kmemPayload (place s pre) = place s pre + headerSize := wrap_of_lt (by omega)
  have hnewDvd : 16 ∣ place s pre + headerSize + w :=
    Nat.dvd_add (Nat.dvd_add h.place_dvd (by decide)) hdvd
  have hnew : kmemAlignUpPtr (wrap (kmemPayload (place s pre) + w)) kmemAlign =
      place s pre + headerSize + w := by
    rw [hpayload, wrap_of_lt (by omega), alignUpPtr_of_dvd (by omega) hnewDvd]
  have hconsumed : sub (place s pre + headerSize + w) (kmemPayload (place s pre)) = w := by
    rw [hpayload, sub_of_le (by omega) (by omega)]
    omega
  rw [kmemSplitIfUseful]
  dsimp only
  rw [alignUpSize_header, if_neg (by decide), h.block.size, wrap_of_lt hw, hnew, hconsumed,
    wrap_of_lt hw]
  by_cases hsmall : b.size < w + headerSize + kmemMinSplit
  · rw [if_pos hsmall, if_neg (by omega)]
  rw [if_neg hsmall, if_neg (by omega), wrap_of_lt (by omega), if_neg (by omega)]
  by_cases hexact : b.size ≤ w + headerSize + kmemMinSplit
  · rw [if_pos hexact, if_neg (by omega)]
  · rw [if_neg hexact, if_pos (by omega)]

theorem frame_cut (h : Tiled s (pre ++ b :: post)) (hb : b.free = true) {w : ℕ}
    (hsize : w + headerSize < b.size) (hi : UsedByte s.heapBase (pre ++ b :: post) i) :
    cutBlock s.mem (place s pre) (place s pre + headerSize + w) w w i = s.mem i := by
  have hmid : ∀ c ∈ [b], c.free = true := fun c hc ↦ (List.mem_singleton.mp hc) ▸ hb
  have hout := UsedByte.outside [b] hmid hi
  have hlt := h.place_lt
  have hwidth : b.width = headerSize + b.size := rfl
  rw [extent_cons, extent_nil, Nat.add_zero] at hout
  have hnext := h.next_apart
  exact cutBlock_of_notMem (by omega) (by omega)
    (hnext.imp_right fun ⟨hz, hle⟩ ↦ ⟨by omega, by omega⟩) (by omega)

/-- `kmem_split_if_useful` on a free block leaves one that is large enough. -/
theorem Tiled.split (h : Tiled s (pre ++ b :: post)) (hb : b.free = true) {w : ℕ} (hdvd : 16 ∣ w)
    (hpos : 0 < w) (hle : w ≤ b.size) (hw : w + headerSize + kmemMinSplit < 2 ^ 64) :
    ∃ m' d post', kmemSplitIfUseful s (place s pre) w = { s with mem := m' } ∧ d.free = true ∧
      w ≤ d.size ∧ Edited s (pre ++ b :: post) m' (pre ++ d :: post') ∧
        (Merged (b :: post) → Merged post') := by
  rw [h.split_eq hdvd hpos hle hw]
  by_cases hcut : w + headerSize + kmemMinSplit < b.size
  · have hsize : w + headerSize < b.size := by omega
    rw [if_pos hcut]
    refine ⟨_, ⟨w, b.free⟩, ⟨b.size - w - headerSize, true⟩ :: post, rfl, hb, le_rfl,
      ⟨h.cut hdvd hpos hsize, fun x d ↦ ?_, fun i hi ↦ frame_cut h hb hsize hi,
        h.unforged_cut hsize⟩,
      fun hmerged ↦ hmerged.congr (by rw [List.map_cons, List.map_cons, hb])⟩
    refine usedAt_exchange [b] [⟨w, b.free⟩, ⟨b.size - w - headerSize, true⟩] ?_ ?_ ?_
    · rw [extent_cons, extent_cons, extent_nil, extent_cons, extent_nil, Blk.width, Blk.width,
        Blk.width]
      change headerSize + w + (headerSize + (b.size - w - headerSize) + 0) = _
      omega
    · exact fun c hc ↦ (List.mem_singleton.mp hc) ▸ hb
    · intro c hc
      rcases List.mem_pair.mp hc with rfl | rfl
      · exact hb
      · rfl
  · rw [if_neg hcut]
    exact ⟨s.mem, b, post, rfl, hb, hle, h.edited, Merged.tail⟩

/-! ## Marking a block -/

theorem usedAt_mark_used (hb : b.free = true) :
    UsedAt s.heapBase (pre ++ ⟨b.size, false⟩ :: post) x d ↔
      UsedAt s.heapBase (pre ++ b :: post) x d ∨ x = place s pre ∧ d = ⟨b.size, false⟩ := by
  rw [usedAt_append, usedAt_append, usedAt_cons, usedAt_cons]
  constructor
  · rintro (hpre | ⟨rfl, rfl, -⟩ | hpost)
    · exact .inl (.inl hpre)
    · exact .inr ⟨rfl, rfl⟩
    · exact .inl (.inr (.inr hpost))
  · rintro ((hpre | ⟨-, -, hfree⟩ | hpost) | ⟨rfl, rfl⟩)
    · exact .inl hpre
    · exact absurd (hb.symm.trans hfree) (by decide)
    · exact .inr (.inr hpost)
    · exact .inr (.inl ⟨rfl, rfl, rfl⟩)

theorem usedAt_mark_free : UsedAt s.heapBase (pre ++ ⟨b.size, true⟩ :: post) x d ↔
    UsedAt s.heapBase (pre ++ b :: post) x d ∧ x ≠ place s pre := by
  have hwidth : ∀ c : Blk, 0 < c.width := fun c ↦ Nat.add_pos_left (by decide) _
  rw [usedAt_append, usedAt_append, usedAt_cons, usedAt_cons]
  constructor
  · rintro (hpre | ⟨-, -, hfree⟩ | hpost)
    · have hend := hpre.1.end_le
      have hd := hwidth d
      exact ⟨.inl hpre, by rw [place]; omega⟩
    · cases hfree
    · have hle := hpost.1.le
      have hb := hwidth ⟨b.size, true⟩
      exact ⟨.inr (.inr hpost), by rw [place]; omega⟩
  · rintro ⟨hpre | ⟨hx, -, -⟩ | hpost, hne⟩
    · exact .inl hpre
    · exact absurd hx hne
    · exact .inr (.inr hpost)

/-! ## `kmem_alloc` -/

/-- The state after `kmem_alloc` has found the block at `a`. -/
def take (s : State) (a w : ℕ) : State :=
  let s := kmemSplitIfUseful s a w
  { s with mem := set s.mem a .free 0 }

/-- None of the blocks is free and has room for `w` bytes. -/
def Lacks (w : ℕ) (bs : List Blk) : Prop := ∀ b ∈ bs, b.free = true → b.size < w

theorem Tiled.allocFrom_cases {fuel w : ℕ} (pre : List Blk) (h : Tiled s (pre ++ bs))
    (hfuel : bs.length < fuel) :
    allocFrom s w fuel (link s.heapEnd (place s pre)) = some (0, s) ∧ Lacks w bs ∨
      ∃ (mid : List Blk) (b : Blk) (post : List Blk),
        bs = mid ++ b :: post ∧ Lacks w mid ∧ b.free = true ∧ w ≤ b.size ∧
        allocFrom s w fuel (link s.heapEnd (place s pre)) =
          some (kmemPayload (place s (pre ++ mid)), take s (place s (pre ++ mid)) w) := by
  induction bs generalizing pre fuel with
  | nil =>
    have hcovers := h.covers
    rw [List.append_nil] at hcovers
    obtain ⟨fuel, rfl⟩ : ∃ k, fuel = k + 1 := ⟨fuel - 1, by omega⟩
    rw [link, if_pos (show place s pre = s.heapEnd from hcovers), allocFrom, if_pos rfl]
    exact .inl ⟨rfl, fun _ hmem ↦ absurd hmem List.not_mem_nil⟩
  | cons b post ih =>
    obtain ⟨fuel, rfl⟩ : ∃ k, fuel = k + 1 := ⟨fuel - 1, by omega⟩
    have hb := h.block
    have hcovers := h.place_covers
    have hwidth := headerSize_le_width b
    have hheader : headerSize = 48 := rfl
    rw [link, if_neg (by omega), allocFrom, if_neg h.place_pos.ne', if_neg (not_not.mpr hb.magic),
      hb.free, hb.size]
    by_cases hfit : flag b.free ≠ 0 ∧ b.size ≥ w
    · rw [if_pos hfit]
      have hfree : b.free = true := by
        by_contra hused
        exact hfit.1 (by rw [flag, if_neg hused])
      refine .inr ⟨[], b, post, rfl, fun _ hmem ↦ absurd hmem List.not_mem_nil, hfree, hfit.2, ?_⟩
      rw [List.append_nil]
      rfl
    · rw [if_neg hfit, hb.next]
      have hrest := ih (pre ++ [b]) h.shift (Nat.lt_of_succ_lt_succ hfuel)
      rw [place_step] at hrest
      have hskip : b.free = true → b.size < w := fun hfree ↦
        not_le.mp fun hle ↦ hfit ⟨by rw [hfree]; decide, hle⟩
      refine hrest.imp (And.imp_right fun hlacks ↦ List.forall_mem_cons.mpr ⟨hskip, hlacks⟩) ?_
      rintro ⟨mid, c, post', rfl, hlacks, hfree, hle, hres⟩
      refine ⟨b :: mid, c, post', rfl, List.forall_mem_cons.mpr ⟨hskip, hlacks⟩, hfree, hle, ?_⟩
      rw [hres, List.append_assoc, List.singleton_append]

theorem Tiled.take (h : Tiled s (pre ++ b :: post)) (hb : b.free = true) {w : ℕ} (hdvd : 16 ∣ w)
    (hpos : 0 < w) (hle : w ≤ b.size) (hw : w + headerSize + kmemMinSplit < 2 ^ 64) :
    ∃ m' d bs', take s (place s pre) w = { s with mem := m' } ∧ w ≤ d.size ∧
      Tiled { s with mem := m' } bs' ∧
      (∀ x e, UsedAt s.heapBase bs' x e ↔
        UsedAt s.heapBase (pre ++ b :: post) x e ∨ x = place s pre ∧ e = d) ∧
      d.free = false ∧
      (∀ i, UsedByte s.heapBase (pre ++ b :: post) i → m' i = s.mem i) ∧
      (Unforged s.mem s.heapBase (pre ++ b :: post) → Unforged m' s.heapBase bs') ∧
      (Merged (pre ++ b :: post) → Merged bs') := by
  obtain ⟨m', d, post', hsplit, hd, hsize, hedited, hmerged⟩ := h.split hb hdvd hpos hle hw
  refine ⟨set m' (place s pre) .free 0, ⟨d.size, false⟩, pre ++ ⟨d.size, false⟩ :: post', ?_, hsize,
    hedited.tiled.mark false, fun x e ↦ ?_, rfl, fun i hi ↦ ?_,
    fun hclean ↦ hedited.tiled.unforged_set (hedited.unforged hclean),
    fun hm ↦ (merged_used rfl).mpr ⟨hm.left, hmerged hm.right⟩⟩
  · rw [Kmem.take, hsplit]
  · rw [usedAt_mark_used hd, hedited.used]
  · exact (frame_mark hedited.tiled (hedited.usedByte.mpr hi)).trans (hedited.frame i hi)

theorem wanted_spec {n : ℕ} (h : kmemAlignUpSize n kmemAlign ≠ 0) :
    16 ∣ kmemAlignUpSize n kmemAlign ∧ 0 < kmemAlignUpSize n kmemAlign ∧
      n ≤ kmemAlignUpSize n kmemAlign := by
  refine ⟨?_, Nat.pos_of_ne_zero h, ?_⟩
  · rw [alignUpSize_eq]
    split_ifs with hle
    · exact Nat.dvd_mul_left 16 _
    · exact Nat.dvd_zero 16
  · rw [alignUpSize_eq] at h ⊢
    split_ifs at h ⊢ with hle
    · omega
    · exact absurd rfl h

/-- What `kmem_alloc` does: it returns `NULL` for a request that is 0, too large to be rounded up or
larger than every free block, or it takes the first free block that is large enough. -/
theorem Tiled.kmemAlloc_cases (h : Tiled s bs) (n : ℕ) :
    kmemAlloc n s = some (0, s) ∧ (n = 0 ∨ kmemAlignUpSize n kmemAlign = 0 ∨
      Lacks (kmemAlignUpSize n kmemAlign) bs) ∨
    kmemAlignUpSize n kmemAlign ≠ 0 ∧ ∃ (pre : List Blk) (b : Blk) (post : List Blk),
      bs = pre ++ b :: post ∧ Lacks (kmemAlignUpSize n kmemAlign) pre ∧ b.free = true ∧
      kmemAlignUpSize n kmemAlign ≤ b.size ∧
      kmemAlloc n s = some (place s pre + headerSize,
        Kmem.take s (place s pre) (kmemAlignUpSize n kmemAlign)) := by
  rw [kmemAlloc]
  by_cases hnone : s.initialized = false ∨ n = 0
  · refine .inl ⟨if_pos hnone, .inl (hnone.resolve_left ?_)⟩
    rw [h.initialized]
    decide
  rw [if_neg hnone]
  dsimp only
  by_cases hzero : kmemAlignUpSize n kmemAlign = 0
  · exact .inl ⟨if_pos hzero, .inr (.inl hzero)⟩
  rw [if_neg hzero]
  have hcases := Tiled.allocFrom_cases (w := kmemAlignUpSize n kmemAlign) [] h h.length_lt
  rw [h.link_base.1] at hcases
  rcases hcases with ⟨hnull, hlacks⟩ | ⟨pre, b, post, rfl, hlacks, hfree, hle, hres⟩
  · exact .inl ⟨hnull, .inr (.inr hlacks)⟩
  · refine .inr ⟨hzero, pre, b, post, rfl, hlacks, hfree, hle, ?_⟩
    have hlt := h.place_lt
    rw [hres, List.nil_append, kmemPayload, wrap_of_lt (by omega)]

/-! ## `kmem_free_checked` -/

theorem and_fifteen (n : ℕ) : n &&& (kmemAlign - 1) = n % 16 :=
  Nat.and_two_pow_sub_one_eq_mod n 4

theorem Tiled.coalesce_prev (h : Tiled s (pre ++ b :: post)) :
    ∃ m' bs', (if get s.mem (place s pre) .prev ≠ 0 ∧
        get s.mem (get s.mem (place s pre) .prev) .free ≠ 0 then
          kmemCoalesceForward (get s.mem (place s pre) .prev) rounds s.mem
        else some s.mem) = some m' ∧ Edited s (pre ++ b :: post) m' bs' ∧
      (Merged pre → Merged (b :: post) → Merged bs') ∧ bs'.length ≤ (pre ++ b :: post).length := by
  rw [h.block.prev]
  rcases List.eq_nil_or_concat' pre with rfl | ⟨pre, c, rfl⟩
  · rw [if_neg fun hcond ↦ hcond.1 rfl]
    exact ⟨s.mem, _, rfl, h.edited, fun _ hmerged ↦ hmerged, le_rfl⟩
  rw [List.append_assoc, List.singleton_append] at h ⊢
  have hc := h.block.free
  rw [before_step, hc]
  cases hfree : c.free with
  | false =>
    rw [if_neg fun hcond ↦ hcond.2 rfl]
    refine ⟨s.mem, _, rfl, h.edited, fun hpre hpost ↦ ?_, le_rfl⟩
    exact (merged_used hfree).mpr ⟨hpre.left, hpost⟩
  | true =>
    have hlen := h.length_lt
    rw [List.length_append, List.length_cons] at hlen
    have hfuel : (b :: post).length < rounds := by omega
    obtain ⟨m', c', post', hres, hc', hedited, hmerged, hshort⟩ := h.coalesce hfree hfuel
    rw [if_pos ⟨h.place_pos.ne', by decide⟩]
    refine ⟨m', _, hres, hedited, fun hpre hpost ↦ merged_append_cons.mpr ⟨?_, hmerged hpost⟩, ?_⟩
    · exact hpre.congr (by rw [List.map_append, List.map_append, List.map_singleton,
        List.map_singleton, hfree, hc'])
    · rw [List.length_append, List.length_append, List.length_cons, List.length_cons]
      omega

/-- The pointer to the payload of an allocated block passes the checks of `kmem_free_checked`,
which then merges the block with those after it and with the one before it. -/
theorem Tiled.kmemFreeChecked_eq (h : Tiled s (pre ++ b :: post)) (hb : b.free = false)
    {m₁ m₂ : Mem}
    (hnext : kmemCoalesceForward (place s pre) rounds (set s.mem (place s pre) .free 1) = some m₁)
    (hprev : (if get m₁ (place s pre) .prev ≠ 0 ∧ get m₁ (get m₁ (place s pre) .prev) .free ≠ 0
      then kmemCoalesceForward (get m₁ (place s pre) .prev) rounds m₁ else some m₁) = some m₂) :
    kmemFreeChecked (place s pre + headerSize) s =
      some (kmemValidate { s with mem := m₂ }, { s with mem := m₂ }) := by
  have hblock := h.block
  have hlt := h.place_lt
  have hcovers := h.place_covers
  have hpos := h.place_pos
  have hbpos := hblock.pos
  have hbase : s.heapBase ≤ place s pre := Nat.le_add_right _ _
  have hwidth : b.width = headerSize + b.size := rfl
  have hheader : kmemHeaderFromPayload (place s pre + headerSize) = place s pre := by
    rw [kmemHeaderFromPayload, sub_of_le (by omega) (by omega)]
    omega
  have hptr : kmemPtrInHeap s (place s pre + headerSize) := ⟨h.initialized, by omega, by omega⟩
  have hin : kmemPtrInHeap s (place s pre) := ⟨h.initialized, by omega, by omega⟩
  have haligned : (place s pre + headerSize) &&& (kmemAlign - 1) = 0 := by
    rw [and_fifteen]
    exact Nat.mod_eq_zero_of_dvd (Nat.dvd_add h.place_dvd (by decide))
  have hused : ¬get s.mem (place s pre) .free ≠ 0 := by
    rw [hblock.free, hb]
    exact not_not.mpr rfl
  rw [Kmem.kmemFreeChecked, if_neg (by omega), if_neg (not_not.mpr hptr),
    if_neg (not_not.mpr haligned)]
  dsimp only
  rw [hheader, if_neg (by rintro (hout | hmagic); exacts [hout hin, hmagic hblock.magic]),
    if_neg hused]
  simp only [hnext, Option.bind_eq_bind, Option.bind_some]
  by_cases hmerge : get m₁ (place s pre) .prev ≠ 0 ∧ get m₁ (get m₁ (place s pre) .prev) .free ≠ 0
  · rw [if_pos hmerge] at hprev ⊢
    rw [hprev, Option.bind_some]
  · rw [if_neg hmerge] at hprev ⊢
    rw [Option.some.inj hprev]

theorem Tiled.kmemFreeChecked (h : Tiled s (pre ++ b :: post)) (hb : b.free = false) :
    ∃ m' bs', kmemFreeChecked (place s pre + headerSize) s =
        some (kmemValidate { s with mem := m' }, { s with mem := m' }) ∧
      Tiled { s with mem := m' } bs' ∧
      (∀ x d, UsedAt s.heapBase bs' x d ↔
        UsedAt s.heapBase (pre ++ b :: post) x d ∧ x ≠ place s pre) ∧
      (∀ i, UsedByte s.heapBase bs' i → m' i = s.mem i) ∧
      (Unforged s.mem s.heapBase (pre ++ b :: post) → Unforged m' s.heapBase bs') ∧
      (Merged (pre ++ b :: post) → Merged bs') ∧ bs'.length ≤ (pre ++ b :: post).length := by
  have hlen := h.length_lt
  rw [List.length_append, List.length_cons] at hlen
  have hfuel : post.length < rounds := by omega
  obtain ⟨m₁, b', post', hres₁, -, hedited₁, hmerged₁, hlen₁⟩ := (h.mark true).coalesce rfl hfuel
  obtain ⟨m₂, bs', hres₂, hedited₂, hmerged₂, hlen₂⟩ := hedited₁.tiled.coalesce_prev
  have hedited := hedited₁.trans hedited₂
  have hiff : ∀ x d, UsedAt s.heapBase bs' x d ↔
      UsedAt s.heapBase (pre ++ b :: post) x d ∧ x ≠ place s pre :=
    fun x d ↦ (hedited.used x d).trans usedAt_mark_free
  refine ⟨m₂, bs', h.kmemFreeChecked_eq hb hres₁ hres₂, hedited.tiled, hiff, fun i hi ↦ ?_,
    fun hclean ↦ hedited.unforged (h.unforged_set hclean), fun hm ↦ ?_, ?_⟩
  · obtain ⟨x, d, hd, hlo, hhi⟩ := id hi
    have hi' : UsedByte s.heapBase (pre ++ b :: post) i := ⟨x, d, ((hiff x d).mp hd).1, hlo, hhi⟩
    exact (hedited.frame i (hedited.usedByte.mp hi)).trans (frame_mark h hi')
  · obtain ⟨hpre, hpost⟩ := (merged_used hb).mp hm
    exact hmerged₂ hpre (hmerged₁ hpost)
  · rw [List.length_append, List.length_cons] at hlen₂ ⊢
    omega

/-! ## `kmem_init` -/

theorem tiled_fillHeader {start usable : ℕ} (m : Mem) (hpos : 0 < start) (hstart : 16 ∣ start)
    (husable : 16 ∣ usable) (hsize : headerSize < usable) (hlt : start + usable < 2 ^ 64) :
    Tiled ⟨fillHeader m start (usable - headerSize) 1 0 0, start, wrap (start + usable),
      start, true⟩
      [⟨usable - headerSize, true⟩] := by
  have hget := @get_fillHeader m start (usable - headerSize) 1 0 0 (by omega) (by omega) (by decide)
    (by decide) (by decide)
  have hwidth : (⟨usable - headerSize, true⟩ : Blk).width = usable := by
    change headerSize + (usable - headerSize) = usable
    omega
  have hend : wrap (start + usable) = start + usable := wrap_of_lt hlt
  refine ⟨rfl, rfl, hpos, hstart, ?_, List.cons_ne_nil _ _, ?_, ⟨?_, trivial⟩⟩
  · rw [hend]
    exact hlt
  · rw [hend, extent_cons, extent_nil, hwidth, Nat.add_zero]
  · refine ⟨?_, ?_, ?_, ?_, ?_, Nat.dvd_sub husable (by decide), Nat.sub_pos_of_lt hsize⟩
    · rw [hget, headerOf]
    · rw [hget, headerOf]
    · rw [hget, headerOf, flag, if_pos rfl]
    · rw [hget, headerOf]
    · rw [hget, headerOf, hwidth, hend, link, if_pos rfl]

/-- An arena that `kmem_init` accepts becomes one free block. If its end were not an address, the
list would not pass `kmem_validate`. -/
theorem tiled_of_kmemInit {base bytes : ℕ} {s₀ : State} (hbase : base < 2 ^ 64)
    (hbytes : bytes < 2 ^ 64) (h : kmemInit base bytes s₀ = (0, s)) :
    ∃ size, Tiled s [⟨size, true⟩] ∧
      (Clean s₀.mem base (base + bytes) → Unforged s.mem s.heapBase [⟨size, true⟩]) := by
  have hheader : headerSize = 48 := rfl
  have hmin : kmemMinSplit = 32 := rfl
  rw [kmemInit] at h
  by_cases hsmall : base = 0 ∨ bytes < headerSize + kmemMinSplit
  · rw [if_pos hsmall] at h
    cases h
  rw [if_neg hsmall] at h
  by_cases hhigh : 2 ^ 64 - 16 < base
  · rw [alignUpPtr_of_gt hhigh] at h
    dsimp only at h
    rw [if_pos (.inl rfl)] at h
    cases h
  have hstart : kmemAlignUpPtr base kmemAlign = (base + 15) / 16 * 16 := alignUpPtr_eq (by omega)
  have hdvd : 16 ∣ (base + 15) / 16 * 16 := Nat.dvd_mul_left 16 _
  have hround : base ≤ (base + 15) / 16 * 16 ∧ (base + 15) / 16 * 16 ≤ base + 15 ∧
      (base + 15) / 16 * 16 < 2 ^ 64 := by omega
  rw [hstart] at h
  generalize (base + 15) / 16 * 16 = start at h hdvd hround
  dsimp only at h
  rw [if_neg (by omega), sub_of_le hround.1 hround.2.2, wrap_of_lt (by omega)] at h
  by_cases hlost : bytes ≤ start - base + headerSize + kmemMinSplit
  · rw [if_pos hlost] at h
    cases h
  have husable : sub bytes (start - base) &&& (sizeMax - (kmemAlign - 1)) =
      (bytes - (start - base)) / 16 * 16 := by
    rw [sub_of_le (by omega) (by omega)]
    exact and_alignMask (by omega)
  have hdvd' : 16 ∣ (bytes - (start - base)) / 16 * 16 := Nat.dvd_mul_left 16 _
  have hle : (bytes - (start - base)) / 16 * 16 ≤ bytes - (start - base) := by omega
  rw [if_neg hlost, husable] at h
  generalize (bytes - (start - base)) / 16 * 16 = usable at h hdvd' hle
  by_cases hfew : usable ≤ headerSize + kmemMinSplit
  · rw [if_pos hfew] at h
    cases h
  rw [if_neg hfew] at h
  obtain ⟨hvalid, rfl⟩ := Prod.mk.inj h
  have hlt : start + usable < 2 ^ 64 := by
    by_contra hge
    have hend : wrap (start + usable) ≤ start := by
      rw [wrap]
      omega
    rw [kmemValidate, if_pos (.inr (.inr (.inl hend)))] at hvalid
    cases hvalid
  refine ⟨_, tiled_fillHeader s₀.mem (by omega) hdvd hdvd' (by omega) hlt, fun hclean ↦ ?_⟩
  have hwidth : (⟨usable - headerSize, true⟩ : Blk).width = usable := by
    change headerSize + (usable - headerSize) = usable
    omega
  refine unforged_cons.mpr ⟨?_, fun x d hx ↦ absurd hx not_at_nil⟩
  rw [hwidth]
  change Clean _ (start + headerSize) (start + usable)
  exact hclean.congr (by omega) (by omega) fun i hi _ ↦ fillHeader_of_notMem (by omega) (.inr hi)

end Kmem

end Mcsos
