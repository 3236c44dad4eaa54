import Mathlib.Order.Fin.Basic
import Pterodon.Lib.LittleEndian
import Pterodon.Bootloader.Message

/-!
# The A/B boot control

The boot control module keeps the metadata of up to four slots in 32 bytes of the misc
partition, under a CRC. `BootControl_lazyInitialization` reads them once, replaces them by
defaults if the CRC is wrong, and remembers the number of slots and the slot the device
runs from; every later call loads the 32 bytes, changes them and stores them with a new
CRC.

An index into `slot_info` past its end is undefined behaviour in the source. Each call of
the model yields the indices it used, and an index past the end changes nothing.
-/

namespace Pterodon.Bootloader

open Lib List

/-! ## The 32 bytes -/

/-- `struct slot_metadata`, two bytes of bit fields. -/
structure SlotMetadata where
  priority : Fin 16
  triesRemaining : Fin 8
  successfulBoot : Fin 2
  verityCorrupted : Fin 2
  reserved : Fin 128
deriving DecidableEq, Repr

/-- Bit fields are allotted from the lowest bit on. -/
def SlotMetadata.bytes (s : SlotMetadata) : Bytes :=
  [UInt8.ofNat (s.priority + 16 * s.triesRemaining + 128 * s.successfulBoot),
   UInt8.ofNat (s.verityCorrupted + 2 * s.reserved)]

def SlotMetadata.ofBytes (b₀ b₁ : UInt8) : SlotMetadata where
  priority := Fin.ofNat 16 b₀.toNat
  triesRemaining := Fin.ofNat 8 (b₀.toNat / 16)
  successfulBoot := Fin.ofNat 2 (b₀.toNat / 128)
  verityCorrupted := Fin.ofNat 2 b₁.toNat
  reserved := Fin.ofNat 128 (b₁.toNat / 2)

/-- `struct bootloader_control`. -/
@[ext] structure BootloaderControl where
  slotSuffix : Field 4
  magic : Field 4
  version : UInt8
  nbSlot : Fin 8
  recoveryTriesRemaining : Fin 8
  /-- The two bits behind the bit fields. -/
  unnamed : Fin 4
  reserved0 : Field 2
  slotInfo : Fin 4 → SlotMetadata
  reserved1 : Field 8
  crc32Le : Field 4

/-- The bytes the CRC is about. -/
def BootloaderControl.checked (c : BootloaderControl) : Bytes :=
  c.slotSuffix.val ++ (c.magic.val ++ (c.version ::
    UInt8.ofNat (c.nbSlot + 8 * c.recoveryTriesRemaining + 64 * c.unnamed) ::
    (c.reserved0.val ++ ((c.slotInfo 0).bytes ++ ((c.slotInfo 1).bytes ++
      ((c.slotInfo 2).bytes ++ ((c.slotInfo 3).bytes ++ c.reserved1.val)))))))

theorem BootloaderControl.checked_length (c : BootloaderControl) : c.checked.length = 28 := by
  simp only [checked, length_append, length_cons, SlotMetadata.bytes, length_nil,
    c.slotSuffix.property, c.magic.property, c.reserved0.property, c.reserved1.property]

/-- The struct in memory and in the misc partition. -/
def BootloaderControl.bytes (c : BootloaderControl) : Field 32 :=
  ⟨c.checked ++ c.crc32Le.val, by
    rw [length_append, c.checked_length, c.crc32Le.property]⟩

/-- The first `n` bytes of a list. -/
def Field.of (n : Nat) (bytes : Bytes) : Field n :=
  ⟨padded n (bytes.take n), padded_length (length_take_le ..)⟩

def BootloaderControl.ofBytes (b : Field 32) : BootloaderControl where
  slotSuffix := .of 4 b.val
  magic := .of 4 (b.val.drop 4)
  version := b.val.getD 8 0
  nbSlot := Fin.ofNat 8 (b.val.getD 9 0).toNat
  recoveryTriesRemaining := Fin.ofNat 8 ((b.val.getD 9 0).toNat / 8)
  unnamed := Fin.ofNat 4 ((b.val.getD 9 0).toNat / 64)
  reserved0 := .of 2 (b.val.drop 10)
  slotInfo := fun i => .ofBytes (b.val.getD (12 + 2 * i) 0) (b.val.getD (13 + 2 * i) 0)
  reserved1 := .of 8 (b.val.drop 20)
  crc32Le := .of 4 (b.val.drop 28)

/-- One entry of the table of `CRC32`. -/
def crcEntry (i : BitVec 32) : BitVec 32 :=
  (List.range 8).foldl (fun crc _ => (crc >>> 1) ^^^ (0xEDB88320#32 &&& -(crc &&& 1))) i

def crc32 (buf : Bytes) : BitVec 32 :=
  ~~~ buf.foldl (fun ret b => (ret >>> 8) ^^^
    crcEntry ((ret ^^^ BitVec.ofNat 32 b.toNat) &&& 0xFF)) (-1)

/-- `BootloaderControlLECRC`, as it stands in memory. -/
def BootloaderControl.leCRC (c : BootloaderControl) : Field 4 :=
  ⟨leBytes 4 (crc32 c.checked).toNat, leBytes_length 4 _⟩

/-- The stored CRC is that of the bytes before it. -/
def BootloaderControl.crcValid (c : BootloaderControl) : Prop := c.crc32Le = c.leCRC

instance (c : BootloaderControl) : Decidable c.crcValid :=
  inferInstanceAs (Decidable (c.crc32Le = c.leCRC))

/-! ## The module -/

def kMaxNumSlots : Nat := 4

def kDefaultBootAttempts : Fin 8 := 7

def kSlotSuffixes : List Bytes :=
  [ascii ['_', 'a'], ascii ['_', 'b'], ascii ['_', 'c'], ascii ['_', 'd']]

/-- `SlotSuffixToIndex`, as it arrives in an `unsigned int`: -1 is the largest one. -/
def slotSuffixToIndex (suffix : Bytes) : Nat :=
  if suffix ∈ kSlotSuffixes then kSlotSuffixes.idxOf suffix else 2 ^ 32 - 1

/-- `boot_control_private_t`, once it is initialized. -/
structure Module where
  miscDevice : Bytes
  numSlots : Nat
  currentSlot : Nat
deriving DecidableEq, Repr

/-- The result of a `stat`. -/
inductive Stat where
  | found
  /-- `ENOENT`. -/
  | missing
  | failed
deriving DecidableEq, Repr

/-- The number of slots, by the boot partitions that exist: all of them up to some slot,
and none after it. `none` where that does not say. -/
def countSlots (stat : Bytes → Stat) (basePath : Bytes) : Option (Fin 8) :=
  let found := (List.range kMaxNumSlots).filter fun slot =>
    stat (basePath ++ kSlotSuffixes.getD slot []) = .found
  let missing := (List.range kMaxNumSlots).filter fun slot =>
    stat (basePath ++ kSlotSuffixes.getD slot []) = .missing
  -- `last_existing_slot + 1`, where -1 is no slot
  let existing := (found.getLast?.map (· + 1)).getD 0
  if (existing ≠ 0 ∧ missing.head? = some existing) ∨
      (missing.head? = none ∧ existing = kMaxNumSlots) then
    some (Fin.ofNat 8 existing)
  else none

/-- The directory of a path, with its `/`, if it has one. -/
def dirName (path : Bytes) : Bytes := (path.reverse.dropWhile (· ≠ 47)).reverse

def initDefaultBootloaderControl (stat : Bytes → Stat) (miscDevice : Bytes)
    (currentSlot : Nat) : BootloaderControl :=
  let counted :=
    if dirName miscDevice = [] then none
    else countSlots stat (dirName miscDevice ++ ascii "boot".toList)
  let nbSlot : Fin 8 := counted.getD 4
  let c : BootloaderControl :=
    { slotSuffix := (Field.zero 4).strlcpy (kSlotSuffixes.getD currentSlot [])
      magic := ⟨leBytes 4 0x42414342, leBytes_length 4 _⟩
      version := 1
      nbSlot := nbSlot
      recoveryTriesRemaining := 0
      unnamed := 0
      reserved0 := .zero 2
      slotInfo := fun slot =>
        { priority := if slot.val < nbSlot.val then 7 else 0
          triesRemaining := if slot.val < nbSlot.val then kDefaultBootAttempts else 0
          successfulBoot := if currentSlot = slot.val then 1 else 0
          verityCorrupted := 0
          reserved := 0 }
      reserved1 := .zero 8
      crc32Le := .zero 4 }
  { c with crc32Le := c.leCRC }

/-- What the initialization meets. -/
structure Setup where
  /-- `ro.boot.slot_suffix`; empty if it is not set. -/
  suffixProp : Bytes
  /-- `get_bootloader_message_blk_device`; empty on failure. -/
  device : Bytes
  loads : Bool
  saves : Bool
  stat : Bytes → Stat

/-- `UpdateAndSaveBootloaderControl`, where the write succeeds. -/
def save (c : BootloaderControl) : Field 32 :=
  { c with crc32Le := c.leCRC : BootloaderControl }.bytes

/-- `BootControl_lazyInitialization` of a module that was not initialized: the module, and
the 32 bytes afterwards. `none` where it returns false. -/
def lazyInitialization (setup : Setup) (misc : Field 32) : Option (Module × Field 32) :=
  if setup.device = [] ∨ !setup.loads then none
  else
    let currentSlot := slotSuffixToIndex setup.suffixProp
    let loaded := BootloaderControl.ofBytes misc
    if loaded.crcValid then some (⟨setup.device, loaded.nbSlot, currentSlot⟩, misc)
    else
      let c := initDefaultBootloaderControl setup.stat setup.device currentSlot
      -- the defaults count even if they could not be saved
      some (⟨setup.device, c.nbSlot, currentSlot⟩, if setup.saves then save c else misc)

/-! ## The calls -/

/-- What a call returns, the indices into `slot_info` it used, and the 32 bytes. -/
structure Result where
  ret : Int
  used : List Nat
  misc : Field 32

/-- Whether the misc partition can be read and written in a call. -/
structure MiscIo where
  loads : Bool
  saves : Bool

/-- One entry of `slot_info` changed. -/
def setSlot (slots : Fin 4 → SlotMetadata) (i : Nat) (f : SlotMetadata → SlotMetadata) :
    Fin 4 → SlotMetadata :=
  fun j => if j.val = i then f (slots j) else slots j

/-- Load, change, save. -/
def update (io : MiscIo) (misc : Field 32) (used : List Nat)
    (f : (Fin 4 → SlotMetadata) → Fin 4 → SlotMetadata) : Result :=
  if !io.loads then ⟨-1, [], misc⟩
  else if !io.saves then ⟨-1, used, misc⟩
  else
    let c := BootloaderControl.ofBytes misc
    ⟨0, used, save { c with slotInfo := f c.slotInfo }⟩

/-- `BootControl_markBootSuccessful`. -/
def markBootSuccessful (m : Module) (io : MiscIo) (misc : Field 32) : Result :=
  update io misc [m.currentSlot] fun slots =>
    setSlot slots m.currentSlot fun s => { s with successfulBoot := 1, triesRemaining := 1 }

def kActivePriority : Fin 16 := 15

def kActiveTries : Fin 8 := 6

/-- The loop of `BootControl_setActiveBootSlot` over the other slots. -/
def lowerPriorities (others : List Nat) (slots : Fin 4 → SlotMetadata) : Fin 4 → SlotMetadata :=
  others.foldl (fun slots i => setSlot slots i fun s =>
    if s.priority ≥ kActivePriority then { s with priority := kActivePriority - 1 } else s) slots

/-- `BootControl_setActiveBootSlot`. -/
def setActiveBootSlot (m : Module) (slot : Nat) (io : MiscIo) (misc : Field 32) : Result :=
  if slot ≥ kMaxNumSlots ∨ slot ≥ m.numSlots then ⟨-1, [], misc⟩
  else
    let others := (List.range m.numSlots).filter (· ≠ slot)
    update io misc (others ++ [slot]) fun slots =>
      setSlot (lowerPriorities others slots) slot fun s =>
        { s with
          priority := kActivePriority
          triesRemaining := kActiveTries
          -- the current slot keeps the bit: activating it again takes an update back
          verityCorrupted := if slot ≠ m.currentSlot then 0 else s.verityCorrupted }

/-- `BootControl_setSlotAsUnbootable`. -/
def setSlotAsUnbootable (m : Module) (slot : Nat) (io : MiscIo) (misc : Field 32) : Result :=
  if slot ≥ kMaxNumSlots ∨ slot ≥ m.numSlots then ⟨-1, [], misc⟩
  else
    update io misc [slot] fun slots =>
      setSlot slots slot fun s => { s with successfulBoot := 0, triesRemaining := 0 }

/-- A query of a slot, by its metadata. -/
def querySlot (f : SlotMetadata → Int) (m : Module) (slot : Nat) (loads : Bool) (misc : Field 32) :
    Int :=
  if slot ≥ kMaxNumSlots ∨ slot ≥ m.numSlots then -1
  else if !loads then -1
  else f ((BootloaderControl.ofBytes misc).slotInfo (Fin.ofNat 4 slot))

/-- `BootControl_isSlotBootable`. -/
def isSlotBootable : Module → Nat → Bool → Field 32 → Int :=
  querySlot fun s => s.triesRemaining.val

/-- `BootControl_isSlotMarkedSuccessful`. -/
def isSlotMarkedSuccessful : Module → Nat → Bool → Field 32 → Int :=
  querySlot fun s => if s.successfulBoot ≠ 0 ∧ s.triesRemaining ≠ 0 then 1 else 0

/-! ## What the calls document -/

inductive Call where
  | markBootSuccessful
  | setActiveBootSlot (slot : Nat)
  | setSlotAsUnbootable (slot : Nat)
deriving DecidableEq, Repr

/-- What the calls document about slot `i`: marking a boot as successful is about the
current slot; making a slot unbootable is about that slot; activating a slot lowers the
other slots of the device below it and leaves their other fields alone. -/
def documented (m : Module) (call : Call) (i : Nat) (s : SlotMetadata) : SlotMetadata :=
  match call with
  | .markBootSuccessful =>
    if i = m.currentSlot then { s with successfulBoot := 1, triesRemaining := 1 } else s
  | .setActiveBootSlot slot =>
    if i = slot then
      { s with
        priority := 15
        triesRemaining := 6
        verityCorrupted := if slot = m.currentSlot then s.verityCorrupted else 0 }
    else if i < m.numSlots then { s with priority := min s.priority 14 }
    else s
  | .setSlotAsUnbootable slot =>
    if i = slot then { s with successfulBoot := 0, triesRemaining := 0 } else s

/-- What a slot is to the queries: its tries and its successful bit. -/
def SlotMetadata.health (s : SlotMetadata) : Fin 8 × Fin 2 := (s.triesRemaining, s.successfulBoot)

/-- What a call makes of the health of a slot. -/
def Call.treat (m : Module) (slot : Nat) (p : Fin 8 × Fin 2) : Call → Fin 8 × Fin 2
  | .markBootSuccessful => if slot = m.currentSlot then (1, 1) else p
  | .setActiveBootSlot s => if slot = s then (6, p.2) else p
  | .setSlotAsUnbootable s => if slot = s then (0, 0) else p

end Pterodon.Bootloader
