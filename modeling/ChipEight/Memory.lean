import ChipEight.Bounds
import ChipEight.Table

/-!
Memory: bytes with addresses from zero. An access names its first address and its length, which may
be any integers; it succeeds if and only if memory covers it, and a refused write changes nothing.
-/
namespace ChipEight

structure Memory where
  bytes : Array Byte

namespace Memory

def defaultSize : Int := 4096

def size (m : Memory) : Nat :=
  m.bytes.size

/-- Whether an access lies in memory. It is the address that must not be negative; the length may
be. -/
def Covers (m : Memory) (addr length : Int) : Prop :=
  0 ≤ addr ∧ addr + length ≤ m.size

instance (m : Memory) (addr length : Int) : Decidable (m.Covers addr length) :=
  inferInstanceAs (Decidable (_ ∧ _))

/-- The byte at an address, zero where there is none. -/
def cell (m : Memory) (addr : Int) : Byte :=
  m.bytes.getD addr.toNat 0

/-- Memory with another byte at an address. -/
def put (addr : Int) (value : Byte) (m : Memory) : Memory :=
  ⟨m.bytes.setIfInBounds addr.toNat value⟩

/-- Puts bytes at consecutive addresses. -/
def putAll (addr : Int) : List Byte → Memory → Memory
  | [], m => m
  | b :: bs, m => putAll (addr + 1) bs (m.put addr b)

def zeroed (size : Nat) : Memory :=
  ⟨Array.replicate size 0⟩

/-- Puts the values of a table at their addresses; an address outside memory is passed over. -/
def preset (values : Table Int Int) (m : Memory) : Memory :=
  values.entries.foldl
    (fun m entry => if m.Covers entry.1 1 then m.put entry.1 (UInt8.ofInt entry.2) else m) m

/-- Memory that is zero but for the given values. -/
def new (size : Nat) (values : Table Int Int) : Memory :=
  (zeroed size).preset values

/-- A size must fit and not be negative, and there must be room for so many bytes. -/
def checkSize (room : Room) (size : Int) : Except Failure Unit :=
  if ¬ Bounds.Fits size then .error .overflow
  else if size < 0 then .error .negativeSize
  else if room.bytes size.toNat then .ok ()
  else .error .noRoom

/-- Memory of the size that is asked for, zero but for the given values. -/
def build (size : Int) (values : Table Int Int) (room : Room := .usual) : Except Failure Memory := do
  checkSize room size
  return new size.toNat values

/-! ## Reading -/

def read (addr : Int) (m : Memory) : Except Fault Byte :=
  if m.Covers addr 1 then .ok (m.cell addr) else .error (.outsideMemory addr 1)

/-- The instruction whose high byte is at an address. -/
def fetch (addr : Int) (m : Memory) : Except Fault Instruction :=
  if m.Covers addr 2 then
    .ok (.ofBytes (m.cell addr) (m.cell (addr + 1)))
  else
    .error (.outsideMemory addr 2)

/-- The bytes from one address up to another, left out itself. A negative end counts from the end of
memory. -/
def slice (first last : Int) (m : Memory) : List Byte :=
  let stop := if last < 0 then last + m.size else last
  (m.bytes.extract first.toNat stop.toNat).toList

def readRange (addr length : Int) (m : Memory) : Except Fault (List Byte) :=
  if m.Covers addr length then
    .ok (m.slice addr (addr + length))
  else
    .error (.outsideRange addr length)

def snapshot (m : Memory) : List Byte :=
  m.bytes.toList

/-! ## Writing -/

def write (addr : Int) (value : Byte) : EStateM Fault Memory Unit := fun m =>
  if m.Covers addr 1 then .ok () (m.put addr value) else .error (.outsideMemory addr 1) m

/-- Writes all bytes or none. -/
def writeRange (addr : Int) (data : List Byte) : EStateM Fault Memory Unit := fun m =>
  if m.Covers addr data.length then
    .ok () (m.putAll addr data)
  else
    .error (.outsideMemory addr data.length) m

/-- Zeroes every byte. -/
def erase (m : Memory) : Memory :=
  zeroed m.size

/-! ## The bytes in use -/

/-- Joins a byte to the run before which it stands, or starts a run with it; zero bytes end runs. -/
def addToRuns (addr : Nat) (value : Byte) (runs : List (Nat × List Byte)) :
    List (Nat × List Byte) :=
  if value = 0 then
    runs
  else
    match runs with
    | (first, run) :: rest =>
      if first = addr + 1 then (addr, value :: run) :: rest
      else (addr, [value]) :: (first, run) :: rest
    | [] => [(addr, [value])]

/-- The longest runs of nonzero bytes, each with its first address, in ascending order. -/
def runs (m : Memory) : List (Nat × List Byte) :=
  (m.bytes.foldr
    (fun value (state : Nat × List (Nat × List Byte)) =>
      (state.1 - 1, addToRuns (state.1 - 1) value state.2))
    (m.size, [])).2

end Memory
end ChipEight
