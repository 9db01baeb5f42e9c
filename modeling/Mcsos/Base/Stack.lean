import Mcsos.Base.Bytes

/-!
# A stack in byte memory

A processor keeps its stack in the memory that everything else lives in. Here the memory gives the
byte at every 64-bit address, a word is eight bytes in little-endian order, and an `Area` is the
part of the memory that may be used as a stack, from `top` downwards to `low`.

`Area.Holds A sp m ws` says that the stack pointer `sp` and the memory `m` represent the list `ws`,
its first word at the stack pointer, and that no byte outside of the area differs from the memory at
the start. Pushing a word is `cons`, popping one is `tail`, and whatever is done to the bytes below
the stack pointer changes nothing. So a sequence of stack instructions is calculated on lists, and
the bytes come back at the end.
-/

namespace Mcsos

namespace Stack

/-! ## Words -/

def load (m : UInt64 → UInt8) (a : UInt64) : UInt64 :=
  UInt64.ofNat (Mem.load (fun i ↦ m (a + UInt64.ofNat i)) 8 0)

def store (m : UInt64 → UInt8) (a v : UInt64) : UInt64 → UInt8 := fun x ↦
  if x - a < 8 then UInt8.ofNat (v.toNat / 256 ^ (x - a).toNat) else m x

variable {m m' : UInt64 → UInt8} {a b v x : UInt64}

theorem load_congr (h : ∀ i < 8, m (a + UInt64.ofNat i) = m' (a + UInt64.ofNat i)) :
    load m a = load m' a := by
  rw [load, load]
  exact congrArg UInt64.ofNat (Mem.load_congr fun i _ hi ↦ h i (by omega))

theorem store_of_le (h : 8 ≤ x - a) : store m a v x = m x :=
  if_neg (UInt64.not_lt.mpr h)

theorem load_store_self (m : UInt64 → UInt8) (a v : UInt64) : load (store m a v) a = v := by
  have hbytes : ∀ i, 0 ≤ i → i < 0 + 8 → store m a v (a + UInt64.ofNat i) =
      Mem.store (fun _ ↦ 0) 8 0 v.toNat i := by
    intro i _ hi
    have hsub : a + UInt64.ofNat i - a = UInt64.ofNat i := by
      rw [UInt64.add_comm, UInt64.add_sub_cancel]
    have hnat : (UInt64.ofNat i).toNat = i := by
      rw [UInt64.toNat_ofNat']
      omega
    have hlt : UInt64.ofNat i < 8 := UInt64.lt_iff_toNat_lt.mpr (by rw [hnat]; exact hi)
    rw [store, hsub, if_pos hlt, Mem.store_apply, if_pos ⟨Nat.zero_le i, hi⟩, hnat, Nat.sub_zero]
  have hv : v.toNat < 256 ^ 8 := v.toNat_lt
  rw [load, Mem.load_congr hbytes, Mem.load_store_self_of_lt hv, UInt64.ofNat_toNat]

theorem store_of_notMem (ha : a.toNat + 8 ≤ 2 ^ 64)
    (h : x.toNat < a.toNat ∨ a.toNat + 8 ≤ x.toNat) : store m a v x = m x := by
  have hx := x.toNat_lt
  have h8 : (8 : UInt64).toNat = 8 := rfl
  refine store_of_le (UInt64.le_iff_toNat_le.mpr ?_)
  rw [UInt64.toNat_sub, h8]
  omega

theorem toNat_add_ofNat {i : ℕ} (h : a.toNat + i < 2 ^ 64) :
    (a + UInt64.ofNat i).toNat = a.toNat + i := by
  rw [UInt64.toNat_add, UInt64.toNat_ofNat']
  omega

theorem toNat_sub_ofNat {n : ℕ} (h : n ≤ a.toNat) :
    (a - UInt64.ofNat n).toNat = a.toNat - n := by
  have ha := a.toNat_lt
  rw [UInt64.toNat_sub, UInt64.toNat_ofNat']
  omega

theorem sub_add_eq (a b c : UInt64) : a - (b + c) = a - b - c := by grind

/-! ## Areas -/

/-- A part of the memory for a stack: it grows from `top` downwards and must not get below `low`.
The memory at the start is `start`. -/
structure Area where
  low : ℕ
  top : UInt64
  start : UInt64 → UInt8

namespace Area

variable {A : Area} {sp w : UInt64} {ws : List UInt64} {n : ℕ}

/-- The stack pointer when there are `n` words on the stack. -/
def pointer (A : Area) (n : ℕ) : UInt64 := A.top - UInt64.ofNat (8 * n)

/-- The words lie below the top, the first one lowest. -/
def Words (A : Area) (m : UInt64 → UInt8) : List UInt64 → Prop
  | [] => True
  | w :: ws => load m (A.pointer (ws.length + 1)) = w ∧ A.Words m ws

/-- The stack is the list `ws`, and the memory outside of the area is as it was. -/
structure Holds (A : Area) (sp : UInt64) (m : UInt64 → UInt8) (ws : List UInt64) : Prop where
  sp_eq : sp = A.pointer ws.length
  fits : A.low + 8 * ws.length ≤ A.top.toNat
  words : A.Words m ws
  outside : ∀ x : UInt64, x.toNat < A.low ∨ A.top.toNat ≤ x.toNat → m x = A.start x

theorem toNat_pointer (h : 8 * n ≤ A.top.toNat) : (A.pointer n).toNat = A.top.toNat - 8 * n :=
  toNat_sub_ofNat h

theorem pointer_succ (A : Area) (n : ℕ) : A.pointer (n + 1) = A.pointer n - 8 := by
  rw [pointer, pointer, Nat.mul_add, Nat.mul_one, UInt64.ofNat_add, sub_add_eq]
  rfl

theorem Words.congr (h : A.Words m ws) (hfits : 8 * ws.length ≤ A.top.toNat)
    (hsame : ∀ x : UInt64, A.top.toNat - 8 * ws.length ≤ x.toNat → x.toNat < A.top.toNat →
      m' x = m x) : A.Words m' ws := by
  induction ws with
  | nil => trivial
  | cons w ws ih =>
    rw [List.length_cons] at hfits hsame
    refine ⟨?_, ih h.2 (by omega) fun x hx hx' ↦ hsame x (by omega) hx'⟩
    rw [← h.1]
    refine load_congr fun i hi ↦ ?_
    have htop := A.top.toNat_lt
    have hsp : (A.pointer (ws.length + 1)).toNat = A.top.toNat - 8 * (ws.length + 1) :=
      toNat_pointer hfits
    have hbyte := toNat_add_ofNat (a := A.pointer (ws.length + 1)) (i := i) (by omega)
    exact hsame _ (by omega) (by omega)

theorem Words.store {us : List UInt64} (h : A.Words m (us ++ w :: ws))
    (hfits : 8 * (us.length + (ws.length + 1)) ≤ A.top.toNat) (v : UInt64) :
    A.Words (store m (A.pointer (ws.length + 1)) v) (us ++ v :: ws) := by
  have htop := A.top.toNat_lt
  have hword : (A.pointer (ws.length + 1)).toNat = A.top.toNat - 8 * (ws.length + 1) :=
    toNat_pointer (by omega)
  induction us with
  | nil =>
    refine ⟨load_store_self _ _ _, h.2.congr (by omega) fun x hx _ ↦ ?_⟩
    exact store_of_notMem (by omega) (.inr (by omega))
  | cons u us ih =>
    rw [List.length_cons] at hfits
    refine ⟨?_, ih h.2 (by omega)⟩
    have hlength : (us ++ v :: ws).length = us.length + (ws.length + 1) := by simp
    have hlength' : (us ++ w :: ws).length = us.length + (ws.length + 1) := by simp
    have hhead : load m (A.pointer ((us ++ w :: ws).length + 1)) = u := h.1
    change load _ (A.pointer ((us ++ v :: ws).length + 1)) = u
    rw [hlength, ← hhead, hlength']
    refine load_congr fun i hi ↦ ?_
    have hlow : (A.pointer (us.length + (ws.length + 1) + 1)).toNat =
        A.top.toNat - 8 * (us.length + (ws.length + 1) + 1) := toNat_pointer (by omega)
    have hbyte := toNat_add_ofNat (a := A.pointer (us.length + (ws.length + 1) + 1)) (i := i)
      (by omega)
    exact store_of_notMem (by omega) (.inl (by omega))

theorem holds_nil (h : A.low ≤ A.top.toNat) : A.Holds A.top A.start [] :=
  ⟨by rw [pointer]; exact (UInt64.sub_zero A.top).symm, h, trivial, fun _ _ ↦ rfl⟩

namespace Holds

theorem toNat_sp (h : A.Holds sp m ws) : sp.toNat = A.top.toNat - 8 * ws.length := by
  rw [h.sp_eq]
  exact Area.toNat_pointer (le_trans (Nat.le_add_left _ _) h.fits)

theorem push (h : A.Holds sp m ws) (hfits : A.low + 8 * (ws.length + 1) ≤ A.top.toNat)
    (v : UInt64) : A.Holds (sp - 8) (store m (sp - 8) v) (v :: ws) := by
  have htop := A.top.toNat_lt
  have hsp : sp - 8 = A.pointer (ws.length + 1) := by rw [h.sp_eq, pointer_succ]
  have hnat : (sp - 8).toNat = A.top.toNat - 8 * (ws.length + 1) := by
    rw [hsp]
    exact Area.toNat_pointer (by omega)
  refine ⟨hsp, hfits, ⟨?_, ?_⟩, fun x hx ↦ ?_⟩
  · rw [← hsp]
    exact load_store_self m (sp - 8) v
  · refine h.words.congr (by omega) fun x hx hx' ↦ ?_
    exact store_of_notMem (by omega) (.inr (by omega))
  · rw [← h.outside x hx]
    exact store_of_notMem (by omega) (by omega)

theorem load_head (h : A.Holds sp m (w :: ws)) : load m sp = w := by
  rw [h.sp_eq]
  exact h.words.1

theorem pop (h : A.Holds sp m (w :: ws)) : A.Holds (sp + 8) m ws := by
  have hfits := h.fits
  rw [List.length_cons] at hfits
  refine ⟨?_, by omega, h.words.2, h.outside⟩
  rw [h.sp_eq, List.length_cons, pointer_succ, UInt64.sub_add_cancel]

theorem drop (us : List UInt64) (h : A.Holds sp m (us ++ ws)) :
    A.Holds (sp + UInt64.ofNat (8 * us.length)) m ws := by
  induction us generalizing sp with
  | nil => exact (UInt64.add_zero sp).symm ▸ h
  | cons u us ih =>
    have hstep := ih h.pop
    rwa [UInt64.add_assoc, show (8 : UInt64) = UInt64.ofNat 8 from rfl, ← UInt64.ofNat_add,
      show 8 + 8 * us.length = 8 * (u :: us).length by rw [List.length_cons]; omega] at hstep

/-- The bytes below the stack pointer do not matter. -/
theorem scratch (h : A.Holds sp m ws)
    (hsame : ∀ x : UInt64, sp.toNat ≤ x.toNat ∨ x.toNat < A.low → m' x = m x) :
    A.Holds sp m' ws := by
  have hsp := h.toNat_sp
  have hfits := h.fits
  refine ⟨h.sp_eq, h.fits, ?_, fun x hx ↦ ?_⟩
  · exact h.words.congr (by omega) fun x hx _ ↦ hsame x (.inl (by omega))
  · rw [← h.outside x hx]
    exact hsame x (by omega)

theorem load_getElem? (h : A.Holds sp m ws) {i : ℕ} (hw : ws[i]? = some w) :
    load m (sp + UInt64.ofNat (8 * i)) = w := by
  obtain ⟨hi, hget⟩ := List.getElem?_eq_some_iff.mp hw
  have hsplit : ws = ws.take i ++ w :: ws.drop (i + 1) := by
    rw [← hget, List.getElem_cons_drop, List.take_append_drop]
  rw [hsplit] at h
  have hdrop := (h.drop _).load_head
  rwa [List.length_take, Nat.min_eq_left hi.le] at hdrop

theorem store_append (us : List UInt64) (h : A.Holds sp m (us ++ w :: ws)) (v : UInt64) :
    A.Holds sp (store m (sp + UInt64.ofNat (8 * us.length)) v) (us ++ v :: ws) := by
  have hlength : (us ++ v :: ws).length = (us ++ w :: ws).length := by simp
  have hfits := h.fits
  rw [← hlength, List.length_append, List.length_cons] at hfits
  have hpointer : sp + UInt64.ofNat (8 * us.length) = A.pointer (ws.length + 1) := (h.drop us).sp_eq
  have hword : (A.pointer (ws.length + 1)).toNat = A.top.toNat - 8 * (ws.length + 1) :=
    Area.toNat_pointer (by omega)
  have htop := A.top.toNat_lt
  rw [hpointer]
  refine ⟨h.sp_eq.trans (by rw [hlength]), by rw [hlength]; exact h.fits,
    h.words.store (by omega) v, fun x hx ↦ ?_⟩
  rw [← h.outside x hx]
  exact store_of_notMem (by omega) (by omega)

end Holds

end Area

end Stack

end Mcsos
