import Mathlib.Data.Finset.Sort
import Mathlib.Data.Fintype.Basic
import Mcsos.Console.Text

/-!
# The interrupt controllers and the timer

`pic.c` and `pit.c` with the devices that they program: a pair of 8259A interrupt controllers, the
slave behind line 2 of the master, and channel 0 of the 8254 timer. The drivers are programs over
the ports (`outb`, `inb`); the devices are what the ports lead to. Of the controllers there is what
the drivers use: the four initialisation words, the mask and the unspecific end of interrupt. Lines
are edge-triggered and a request stays until it is acknowledged; requests that go away before that
are not modelled. Of the fourth word the bits for the 8086 mode and for the automatic end of
interrupt are modelled, and the third word says who answers for a line (`Board.accept`).

A controller offers the unmasked request of the highest priority, unless a request of this or a
higher priority is in service. It stays in service until the end of interrupt.
-/

namespace Mcsos

namespace Trap

/-! ## The devices -/

/-- The lines of the two controllers. -/
inductive Line where
  | master (n : Fin 8)
  | slave (n : Fin 8)
  deriving DecidableEq

/-- The number of a line. -/
def Line.irq : Line → ℕ
  | .master n => n
  | .slave n => 8 + n

/-- The line of the master that the slave is behind. -/
def cascade : Fin 8 := 2

/-- The line of the timer. -/
def Line.timer : Line := .master 0

/-- The word that a controller expects at its data port. -/
inductive PicWord where
  | mask
  | icw2
  | icw3
  | icw4
  deriving DecidableEq

/-- An 8259A. -/
structure Pic where
  base : UInt8
  imr : UInt8
  irr : Finset (Fin 8)
  isr : Finset (Fin 8)
  expects : PicWord
  /-- There is no third initialisation word. -/
  single : Bool
  /-- There is a fourth initialisation word. -/
  fourth : Bool
  icw3 : UInt8
  icw4 : UInt8

namespace Pic

def masked (p : Pic) (n : Fin 8) : Bool := p.imr.toNat.testBit n

/-- The first number with a property. -/
def first (P : Fin 8 → Prop) [DecidablePred P] : Option (Fin 8) :=
  (List.finRange 8).find? fun n ↦ decide (P n)

/-- The request that the controller offers. -/
def next (p : Pic) (requests : Finset (Fin 8)) : Option (Fin 8) :=
  first fun n ↦ n ∈ requests ∧ p.masked n = false ∧ ∀ m ∈ p.isr, n < m

/-- The processor takes the request `n`. It is in service, unless the interrupt ends by itself. -/
def acknowledge (n : Fin 8) (p : Pic) : Pic :=
  { p with
    irr := p.irr.erase n
    isr := if p.icw4 &&& 2 = 0 then insert n p.isr else p.isr }

/-- The vector of the request `n`, which a controller has in 8086 mode only. -/
def vector (n : Fin 8) (p : Pic) : Option UInt8 :=
  if p.icw4 &&& 1 = 0 then none else some (p.base + UInt8.ofNat n.val)

/-- The end of the interrupt with the highest priority. -/
def endOfInterrupt (p : Pic) : Pic :=
  { p with isr := (first (· ∈ p.isr)).elim p.isr p.isr.erase }

/-- A write to the command port. -/
def command (v : UInt8) (p : Pic) : Pic :=
  if v &&& 0x10 ≠ 0 then
    { p with
      imr := 0
      irr := ∅
      isr := ∅
      expects := .icw2
      single := decide (v &&& 2 ≠ 0)
      fourth := decide (v &&& 1 ≠ 0)
      icw4 := 0 }
  else if v = 0x20 then p.endOfInterrupt
  else p

/-- A write to the data port. -/
def data (v : UInt8) (p : Pic) : Pic :=
  let afterThird : PicWord := if p.fourth then .icw4 else .mask
  match p.expects with
  | .mask => { p with imr := v }
  | .icw2 => { p with base := v &&& 0xF8, expects := if p.single then afterThird else .icw3 }
  | .icw3 => { p with icw3 := v, expects := afterThird }
  | .icw4 => { p with icw4 := v, expects := .mask }

end Pic

/-- Channel 0 of the timer: the count that it starts from, and the low byte of a new one. -/
structure Pit where
  mode : UInt8
  reload : ℕ
  low : Option UInt8

namespace Pit

/-- A write to the command port. -/
def command (v : UInt8) (p : Pit) : Pit :=
  if v &&& 0xC0 = 0 then { p with mode := v, low := none } else p

/-- A write to the data port: the low byte, then the high byte. -/
def data (v : UInt8) (p : Pit) : Pit :=
  match p.low with
  | none => { p with low := some v }
  | some low => { p with reload := low.toNat + 256 * v.toNat, low := none }

end Pit

/-- What the ports lead to, and the bytes that went out on the serial line. -/
structure Board where
  master : Pic
  slave : Pic
  pit : Pit
  sent : List UInt8

namespace Board

def outb (port : UInt16) (v : UInt8) (b : Board) : Board :=
  match port.toNat with
  | 0x20 => { b with master := b.master.command v }
  | 0x21 => { b with master := b.master.data v }
  | 0xA0 => { b with slave := b.slave.command v }
  | 0xA1 => { b with slave := b.slave.data v }
  | 0x40 => { b with pit := b.pit.data v }
  | 0x43 => { b with pit := b.pit.command v }
  | _ => b

def inb (port : UInt16) (b : Board) : UInt8 :=
  match port.toNat with
  | 0x21 => b.master.imr
  | 0xA1 => b.slave.imr
  | _ => 0

/-- Bytes go out on the serial line. -/
def send (bytes : List UInt8) (b : Board) : Board := { b with sent := b.sent ++ bytes }

/-- A device asks for an interrupt. Line 2 of the master belongs to the slave. -/
def raise : Line → Board → Board
  | .master n, b =>
    if n = cascade then b else { b with master := { b.master with irr := insert n b.master.irr } }
  | .slave n, b => { b with slave := { b.slave with irr := insert n b.slave.irr } }

/-- What the slave offers. -/
def slaveNext (b : Board) : Option (Fin 8) := b.slave.next b.slave.irr

/-- The requests at the master; line 2 is that of the slave. -/
def masterRequests (b : Board) : Finset (Fin 8) :=
  b.master.irr ∪ if b.slaveNext.isSome then {cascade} else ∅

/-- The slave is asked for the vector of the request `n` at the master. It answers if that is the
number it was given. -/
def acceptSlave (n : Fin 8) (b : Board) : Option (Line × UInt8 × Board) :=
  if (b.slave.icw3 &&& 7).toNat = n then
    b.slaveNext.bind fun k ↦ (b.slave.vector k).map fun v ↦ (.slave k, v,
      { b with master := b.master.acknowledge n, slave := b.slave.acknowledge k })
  else none

/-- The processor asks for an interrupt: the line, the vector and the controllers after that. The
master answers for the lines that its third word does not name. -/
def accept (b : Board) : Option (Line × UInt8 × Board) :=
  (b.master.next b.masterRequests).bind fun n ↦
    if b.master.icw3.toNat.testBit n then b.acceptSlave n
    else (b.master.vector n).map fun v ↦ (.master n, v, { b with master := b.master.acknowledge n })

end Board

/-! ## The drivers -/

/-- A driver. -/
abbrev PortM := StateM Board

def outb (port : UInt16) (v : UInt8) : PortM Unit := modify (Board.outb port v)

def inb (port : UInt16) : PortM UInt8 := do return Board.inb port (← get)

def ioWait : PortM Unit := outb 0x80 0

def pic1Command : UInt16 := 0x20
def pic1Data : UInt16 := 0x21
def pic2Command : UInt16 := 0xA0
def pic2Data : UInt16 := 0xA1
def picEoi : UInt8 := 0x20

def picRemap (masterOffset slaveOffset : UInt8) : PortM Unit := do
  let masterMask ← inb pic1Data
  let slaveMask ← inb pic2Data
  outb pic1Command 0x11
  ioWait
  outb pic2Command 0x11
  ioWait
  outb pic1Data masterOffset
  ioWait
  outb pic2Data slaveOffset
  ioWait
  outb pic1Data 0x04
  ioWait
  outb pic2Data 0x02
  ioWait
  outb pic1Data 0x01
  ioWait
  outb pic2Data 0x01
  ioWait
  outb pic1Data masterMask
  outb pic2Data slaveMask

def picMaskAll : PortM Unit := do
  outb pic1Data 0xFF
  outb pic2Data 0xFF

def picUnmaskIrq (irq : UInt8) : PortM Unit := do
  let port := if irq < 8 then pic1Data else pic2Data
  let line := if irq < 8 then irq else irq - 8
  let mask ← inb port
  outb port (mask &&& ~~~((1 : UInt32) <<< line.toUInt32).toUInt8)

def picSendEoi (irq : UInt8) : PortM Unit := do
  if irq ≥ 8 then outb pic2Command picEoi
  outb pic1Command picEoi

def pitBaseFrequencyHz : UInt32 := 1193182

def pitConfigureHz (hz : UInt32) : PortM Unit := do
  let hz := if hz = 0 then 100 else hz
  let divisor := pitBaseFrequencyHz / hz
  let divisor := if divisor = 0 then 1 else divisor
  let divisor := if divisor > 0xFFFF then 0xFFFF else divisor
  outb 0x43 0x36
  outb 0x40 (divisor &&& 0xFF).toUInt8
  outb 0x40 (divisor >>> 8 &&& 0xFF).toUInt8

/-! ## What the drivers do -/

variable {b : Board}

/-- A controller after its four initialisation words, with its mask written again. -/
def Pic.remapped (base icw3 : UInt8) (p : Pic) : Pic where
  base := base &&& 0xF8
  imr := p.imr
  irr := ∅
  isr := ∅
  expects := .mask
  single := false
  fourth := true
  icw3 := icw3
  icw4 := 1

theorem run_picRemap (masterOffset slaveOffset : UInt8) (b : Board) :
    (picRemap masterOffset slaveOffset).run b =
      ((), { b with master := b.master.remapped masterOffset 4
                    slave := b.slave.remapped slaveOffset 2 }) := rfl

theorem Pic.data_of_mask {p : Pic} (h : p.expects = .mask) (v : UInt8) :
    p.data v = { p with imr := v } := by
  simp only [Pic.data, h]

theorem run_picMaskAll (hm : b.master.expects = .mask) (hs : b.slave.expects = .mask) :
    picMaskAll.run b = ((), { b with master := { b.master with imr := 0xFF }
                                     slave := { b.slave with imr := 0xFF } }) := by
  change ((), { b with master := b.master.data 0xFF, slave := b.slave.data 0xFF }) = _
  rw [Pic.data_of_mask hm, Pic.data_of_mask hs]

theorem run_picSendEoi (irq : UInt8) (b : Board) : (picSendEoi irq).run b =
    ((), { b with master := b.master.endOfInterrupt
                  slave := if irq ≥ 8 then b.slave.endOfInterrupt else b.slave }) := by
  rw [picSendEoi]
  split_ifs <;> rfl

end Trap

end Mcsos
