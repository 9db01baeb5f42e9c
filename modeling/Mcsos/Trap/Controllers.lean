import Mcsos.Trap.Dispatch

/-!
# What the controllers deliver

Between two interrupts nothing is in service (`Idle`): the handler ends the interrupt at each
controller that has it in service. So the pair of controllers is a set of pending lines and a set of
masked ones, and the processor gets the pending line that is first in the order of priority and can
be delivered (`accept_line`).
-/

namespace Mcsos

namespace Trap

/-- The controllers are initialised as a cascade in 8086 mode, and nothing is in service. Line 2 has
no request of its own. -/
structure Idle (b : Board) : Prop where
  master_base : b.master.base = picMasterOffset
  slave_base : b.slave.base = picSlaveOffset
  master_icw3 : b.master.icw3 = 4
  slave_icw3 : b.slave.icw3 = 2
  master_icw4 : b.master.icw4 = 1
  slave_icw4 : b.slave.icw4 = 1
  master_expects : b.master.expects = .mask
  slave_expects : b.slave.expects = .mask
  master_isr : b.master.isr = ∅
  slave_isr : b.slave.isr = ∅
  cascade_notMem : cascade ∉ b.master.irr

namespace Board

def pending (b : Board) : Line → Bool
  | .master n => decide (n ∈ b.master.irr)
  | .slave n => decide (n ∈ b.slave.irr)

def masked (b : Board) : Line → Bool
  | .master n => b.master.masked n
  | .slave n => b.slave.masked n

end Board

/-- The lines in the order of their priority. Those of the slave have the place of line 2. -/
def priority : List Line :=
  (List.finRange 8).flatMap fun n ↦
    if n = cascade then (List.finRange 8).map .slave else [.master n]

/-- A request that the processor can get: neither its line nor, for the slave, line 2 of the master
is masked. -/
def deliverable (pending masked : Line → Bool) : Line → Bool
  | .master n => pending (.master n) && !masked (.master n)
  | .slave n => pending (.slave n) && !masked (.slave n) && !masked (.master cascade)

variable {b b' : Board} {line : Line} {v : UInt8}

/-! ## The line that is taken -/

section

variable {α β : Type*} {p : α → Bool} {f : α → Option β}

theorem find?_bind_eq_findSome? (h : ∀ x, p x = true → (f x).isSome) (xs : List α) :
    (xs.find? p).bind f = xs.findSome? fun x ↦ if p x then f x else none := by
  induction xs with
  | nil => rfl
  | cons x xs ih =>
    by_cases hx : p x = true
    · obtain ⟨y, hy⟩ := Option.isSome_iff_exists.mp (h x hx)
      simp [hx, hy]
    · simp [hx, ih]

end

theorem Pic.next_eq {p : Pic} (h : p.isr = ∅) (requests : Finset (Fin 8)) :
    p.next requests =
      (List.finRange 8).find? fun n ↦ decide (n ∈ requests) && !p.masked n := by
  rw [next, first]
  congr 1
  funext n
  simp [h]

theorem slaveNext_map (hidle : Idle b) : b.slaveNext.map Line.slave =
    ((List.finRange 8).map Line.slave).find? fun l ↦ b.pending l && !b.masked l := by
  rw [Board.slaveNext, Pic.next_eq hidle.slave_isr, List.find?_map]
  rfl

theorem mem_masterRequests {n : Fin 8} (hn : n ≠ cascade) :
    n ∈ b.masterRequests ↔ n ∈ b.master.irr := by
  rw [Board.masterRequests, Finset.mem_union, or_iff_left]
  split_ifs <;> simp [hn]

/-- Line 2 is requested by the slave only. -/
theorem cascade_mem_masterRequests (hidle : Idle b) :
    cascade ∈ b.masterRequests ↔ b.slaveNext.isSome := by
  rw [Board.masterRequests, Finset.mem_union, or_iff_right hidle.cascade_notMem]
  split_ifs with h <;> simp [h]

theorem find?_line (hidle : Idle b) (n : Fin 8) :
    (if decide (n ∈ b.masterRequests) && !b.master.masked n then
        if n = cascade then b.slaveNext.map Line.slave else some (Line.master n)
      else none) =
      (if n = cascade then (List.finRange 8).map Line.slave else [.master n]).find?
        (deliverable b.pending b.masked) := by
  by_cases hn : n = cascade
  · subst hn
    rw [if_pos rfl, if_pos rfl]
    by_cases hmask : b.master.masked cascade = true
    · have hnone : ∀ l ∈ (List.finRange 8).map Line.slave,
          ¬deliverable b.pending b.masked l = true := by
        simp [deliverable, Board.masked, hmask]
      rw [hmask, List.find?_eq_none.mpr hnone]
      simp
    · have hsame : ((List.finRange 8).map Line.slave).find? (deliverable b.pending b.masked) =
          b.slaveNext.map Line.slave := by
        rw [slaveNext_map hidle, List.find?_map, List.find?_map]
        congr 2
        funext k
        simp [deliverable, Board.masked, hmask]
      rw [hsame]
      by_cases hslave : b.slaveNext.isSome
      · simp [cascade_mem_masterRequests hidle, hslave, hmask]
      · simp [cascade_mem_masterRequests hidle, Option.not_isSome_iff_eq_none.mp hslave]
  · simp only [if_neg hn, mem_masterRequests hn, List.find?_singleton]
    rfl

theorem Pic.vector_eq {p : Pic} (h : p.icw4 = 1) (n : Fin 8) :
    p.vector n = some (p.base + UInt8.ofNat n.val) := by
  rw [vector, h]
  rfl

/-- The slave answers for line 2, and the master for the other lines. -/
theorem accept_eq (hidle : Idle b) :
    b.accept = (b.master.next b.masterRequests).bind fun n ↦
      if n = cascade then
        b.slaveNext.map fun k ↦ (.slave k, b.slave.base + UInt8.ofNat k.val,
          { b with master := b.master.acknowledge cascade, slave := b.slave.acknowledge k })
      else some (.master n, b.master.base + UInt8.ofNat n.val,
        { b with master := b.master.acknowledge n }) := by
  have hbit : ∀ n : Fin 8, (4 : UInt8).toNat.testBit n = decide (n = cascade) := by decide
  rw [Board.accept]
  congr 1
  funext n
  rw [hidle.master_icw3, hbit]
  by_cases hn : n = cascade
  · rw [decide_eq_true hn, if_pos rfl, if_pos hn, hn, Board.acceptSlave, hidle.slave_icw3,
      if_pos (by decide)]
    simp only [Pic.vector_eq hidle.slave_icw4, Option.map_some]
    cases b.slaveNext <;> rfl
  · rw [decide_eq_false hn, if_neg Bool.false_ne_true, if_neg hn, Pic.vector_eq hidle.master_icw4,
      Option.map_some]

/-- The processor gets the first line in the order of priority that can be delivered. -/
theorem accept_line (hidle : Idle b) :
    b.accept.map Prod.fst = priority.find? (deliverable b.pending b.masked) := by
  have hfst (n : Fin 8) :
      (if n = cascade then
        b.slaveNext.map fun k ↦ (Line.slave k, b.slave.base + UInt8.ofNat k.val,
          { b with master := b.master.acknowledge cascade, slave := b.slave.acknowledge k })
      else some (Line.master n, b.master.base + UInt8.ofNat n.val,
        { b with master := b.master.acknowledge n })).map Prod.fst =
      if n = cascade then b.slaveNext.map Line.slave else some (Line.master n) := by
    split_ifs
    · rw [Option.map_map]
      rfl
    · rfl
  rw [accept_eq hidle, Option.map_bind, Pic.next_eq hidle.master_isr, priority, List.find?_flatMap]
  simp only [Function.comp_def, hfst]
  rw [find?_bind_eq_findSome?]
  · simp only [find?_line hidle]
  · intro n hn
    by_cases h2 : n = cascade
    · have hslave := (cascade_mem_masterRequests hidle).mp (h2 ▸ by simp_all)
      simpa [h2] using hslave
    · simp [h2]

/-! ## The end of the interrupt -/

/-- The request of a line is taken away. -/
def Board.clear : Line → Board → Board
  | .master n, b => { b with master := { b.master with irr := b.master.irr.erase n } }
  | .slave n, b => { b with slave := { b.slave with irr := b.slave.irr.erase n } }

theorem Pic.endOfInterrupt_acknowledge {p : Pic} (h : p.isr = ∅) (h4 : p.icw4 = 1) (n : Fin 8) :
    (p.acknowledge n).endOfInterrupt = { p with irr := p.irr.erase n } := by
  have hend : ∀ n : Fin 8, (Pic.first (· ∈ insert n (∅ : Finset (Fin 8)))).elim (insert n ∅)
      (insert n (∅ : Finset (Fin 8))).erase = ∅ := by decide
  have hservice : p.acknowledge n = { p with irr := p.irr.erase n, isr := insert n ∅ } := by
    rw [acknowledge, h4, if_pos (by decide), h]
  rw [hservice, endOfInterrupt, hend, ← h]

theorem accept_eq_some (hidle : Idle b) (h : b.accept = some (line, v, b')) :
    v.toNat = 32 + line.irq ∧
      ((picSendEoi (UInt8.ofNat line.irq)).run b').2 = b.clear line := by
  rw [accept_eq hidle] at h
  obtain ⟨n, -, hrest⟩ := Option.bind_eq_some_iff.mp h
  rw [run_picSendEoi]
  split_ifs at hrest with h2
  · obtain ⟨k, -, heq⟩ := Option.map_eq_some_iff.mp hrest
    obtain ⟨rfl, rfl, rfl⟩ : .slave k = line ∧ b.slave.base + UInt8.ofNat k.val = v ∧
      { b with master := b.master.acknowledge cascade, slave := b.slave.acknowledge k } = b' := by
        simpa using heq
    have hge : UInt8.ofNat (Line.slave k).irq ≥ 8 :=
      (by decide : ∀ k : Fin 8, UInt8.ofNat (Line.slave k).irq ≥ 8) k
    rw [hidle.slave_base]
    refine ⟨(by decide : ∀ k : Fin 8,
      (picSlaveOffset + UInt8.ofNat k.val).toNat = 32 + (Line.slave k).irq) k, ?_⟩
    -- the interrupt is in service at both controllers
    simp only [if_pos hge, Pic.endOfInterrupt_acknowledge hidle.master_isr hidle.master_icw4,
      Pic.endOfInterrupt_acknowledge hidle.slave_isr hidle.slave_icw4,
      Finset.erase_eq_of_notMem hidle.cascade_notMem, Board.clear]
  · obtain ⟨rfl, rfl, rfl⟩ : .master n = line ∧ b.master.base + UInt8.ofNat n.val = v ∧
        { b with master := b.master.acknowledge n } = b' := by simpa using hrest
    have hlt : ¬UInt8.ofNat (Line.master n).irq ≥ 8 :=
      (by decide : ∀ n : Fin 8, ¬UInt8.ofNat (Line.master n).irq ≥ 8) n
    rw [hidle.master_base]
    refine ⟨(by decide : ∀ n : Fin 8,
      (picMasterOffset + UInt8.ofNat n.val).toNat = 32 + (Line.master n).irq) n, ?_⟩
    simp only [if_neg hlt, Pic.endOfInterrupt_acknowledge hidle.master_isr hidle.master_icw4,
      Board.clear]

/-! ## The two sets of lines -/

theorem pending_raise (b : Board) (line : Line) : (b.raise line).pending =
    if line = .master cascade then b.pending else Function.update b.pending line true := by
  cases line with
  | master n =>
    by_cases hn : n = cascade
    · simp only [Board.raise, hn, if_true]
    · rw [if_neg (by simpa using hn), Board.raise, if_neg hn]
      funext l
      cases l <;> simp [Board.pending, Function.update_apply, Bool.decide_or]
  | slave n =>
    rw [if_neg (by simp), Board.raise]
    funext l
    cases l <;> simp [Board.pending, Function.update_apply, Bool.decide_or]

theorem pending_clear (b : Board) (line : Line) :
    (b.clear line).pending = Function.update b.pending line false := by
  funext l
  cases line with
  | master n =>
    cases l with
    | master m => simp [Board.clear, Board.pending, Function.update_apply]
    | slave m => rfl
  | slave n =>
    cases l with
    | master m => rfl
    | slave m => simp [Board.clear, Board.pending, Function.update_apply]

theorem masked_raise (b : Board) (line : Line) : (b.raise line).masked = b.masked := by
  cases line with
  | master n =>
    rw [Board.raise]
    split_ifs <;> rfl
  | slave n => rfl

theorem masked_clear (b : Board) (line : Line) : (b.clear line).masked = b.masked := by
  cases line <;> rfl

theorem testBit_unmask (imr : UInt8) (n m : Fin 8) :
    (imr &&& ~~~((1 : UInt32) <<< (UInt8.ofNat n).toUInt32).toUInt8).toNat.testBit m =
      (imr.toNat.testBit m && decide (m ≠ n)) := by
  have hbit : ∀ n m : Fin 8,
      (~~~((1 : UInt32) <<< (UInt8.ofNat n).toUInt32).toUInt8).toNat.testBit m =
        decide (m ≠ n) := by decide
  rw [UInt8.toNat_and, Nat.testBit_and, hbit n m]

theorem run_picUnmaskIrq (hidle : Idle b) (line : Line) :
    ((picUnmaskIrq (UInt8.ofNat line.irq)).run b).2 =
      match line with
      | .master n => { b with master.imr :=
          b.master.imr &&& ~~~((1 : UInt32) <<< (UInt8.ofNat n).toUInt32).toUInt8 }
      | .slave n => { b with slave.imr :=
          b.slave.imr &&& ~~~((1 : UInt32) <<< (UInt8.ofNat n).toUInt32).toUInt8 } := by
  cases line with
  | master n =>
    have hlt : UInt8.ofNat (Line.master n).irq < 8 :=
      (by decide : ∀ n : Fin 8, UInt8.ofNat (Line.master n).irq < 8) n
    rw [picUnmaskIrq, if_pos hlt, if_pos hlt]
    change { b with master := b.master.data _ } = _
    rw [Pic.data_of_mask hidle.master_expects]
    rfl
  | slave n =>
    have hge : ¬UInt8.ofNat (Line.slave n).irq < 8 :=
      (by decide : ∀ n : Fin 8, ¬UInt8.ofNat (Line.slave n).irq < 8) n
    have hsub : UInt8.ofNat (Line.slave n).irq - 8 = UInt8.ofNat n :=
      (by decide : ∀ n : Fin 8, UInt8.ofNat (Line.slave n).irq - 8 = UInt8.ofNat n) n
    rw [picUnmaskIrq, if_neg hge, if_neg hge, hsub]
    change { b with slave := b.slave.data _ } = _
    rw [Pic.data_of_mask hidle.slave_expects]
    rfl

theorem masked_unmask (hidle : Idle b) (line : Line) :
    ((picUnmaskIrq (UInt8.ofNat line.irq)).run b).2.masked =
      Function.update b.masked line false := by
  rw [run_picUnmaskIrq hidle]
  have hupdate (p : Pic) (n m : Fin 8) :
      (p.imr.toNat.testBit m && decide (m ≠ n)) = if m = n then false else p.masked m := by
    by_cases h : m = n <;> simp [h, Pic.masked]
  funext l
  cases line with
  | master n =>
    cases l with
    | master m =>
      rw [Function.update_apply]
      simp only [Line.master.injEq]
      exact (testBit_unmask _ n m).trans (hupdate _ n m)
    | slave m => rfl
  | slave n =>
    cases l with
    | master m => rfl
    | slave m =>
      rw [Function.update_apply]
      simp only [Line.slave.injEq]
      exact (testBit_unmask _ n m).trans (hupdate _ n m)

theorem pending_unmask (hidle : Idle b) (line : Line) :
    ((picUnmaskIrq (UInt8.ofNat line.irq)).run b).2.pending = b.pending := by
  rw [run_picUnmaskIrq hidle]
  cases line <;> rfl

theorem pending_maskAll (hidle : Idle b) : (picMaskAll.run b).2.pending = b.pending := by
  rw [run_picMaskAll hidle.master_expects hidle.slave_expects]
  rfl

theorem masked_maskAll (hidle : Idle b) (line : Line) :
    (picMaskAll.run b).2.masked line = true := by
  rw [run_picMaskAll hidle.master_expects hidle.slave_expects]
  have hbit : ∀ n : Fin 8, (0xFF : UInt8).toNat.testBit n = true := by decide
  cases line with
  | master n => exact hbit n
  | slave n => exact hbit n

theorem pending_remap (b : Board) :
    ((picRemap picMasterOffset picSlaveOffset).run b).2.pending = fun _ ↦ false := by
  rw [run_picRemap]
  funext line
  cases line <;> simp [Board.pending, Pic.remapped]

/-! ## The controllers stay idle -/

theorem idle_raise (hidle : Idle b) (line : Line) : Idle (b.raise line) := by
  cases line with
  | master n =>
    rw [Board.raise]
    split_ifs with hn
    · exact hidle
    · exact { hidle with cascade_notMem := by simp [Ne.symm hn, hidle.cascade_notMem] }
  | slave n => exact { hidle with }

theorem idle_clear (hidle : Idle b) (line : Line) : Idle (b.clear line) := by
  cases line with
  | master n =>
    exact { hidle with cascade_notMem := fun h ↦ hidle.cascade_notMem (Finset.mem_of_mem_erase h) }
  | slave n => exact { hidle with }

theorem idle_unmask (hidle : Idle b) (line : Line) :
    Idle ((picUnmaskIrq (UInt8.ofNat line.irq)).run b).2 := by
  rw [run_picUnmaskIrq hidle]
  cases line <;> exact { hidle with }

theorem idle_maskAll (hidle : Idle b) : Idle (picMaskAll.run b).2 := by
  rw [run_picMaskAll hidle.master_expects hidle.slave_expects]
  exact { hidle with }

/-- The controllers are idle after their initialisation, whatever they did before. -/
theorem idle_remap (b : Board) : Idle ((picRemap picMasterOffset picSlaveOffset).run b).2 := by
  rw [run_picRemap]
  exact ⟨rfl, rfl, rfl, rfl, rfl, rfl, rfl, rfl, rfl, rfl, Finset.notMem_empty cascade⟩

end Trap

end Mcsos
