import BeanKey.Lattice.Entry
import BeanKey.Library.Bytes

/-! The binary entry shards of a dictionary: little-endian fields, entry blocks and the
offset table that finds them. -/
namespace BeanKey.Dictionary
open BeanKey.Lattice Packing

/-- The bit patterns of single-precision values. -/
structure FloatFormat where
  toBits : ℚ → Nat
  fromBits : Nat → ℚ

/-! ### Lossy UTF-8 -/

def replacementCharacter : Char := Char.ofNat 0xfffd

/-- What follows a lead byte: the bounds of the second byte and how many bytes follow it. -/
def continuationRule (lead : Nat) : Option (Nat × Nat × Nat) :=
  if 0xc2 ≤ lead ∧ lead ≤ 0xdf then some (0x80, 0xbf, 0)
  else if lead = 0xe0 then some (0xa0, 0xbf, 1)
  else if lead = 0xed then some (0x80, 0x9f, 1)
  else if 0xe1 ≤ lead ∧ lead ≤ 0xef then some (0x80, 0xbf, 1)
  else if lead = 0xf0 then some (0x90, 0xbf, 2)
  else if 0xf1 ≤ lead ∧ lead ≤ 0xf3 then some (0x80, 0xbf, 2)
  else if lead = 0xf4 then some (0x80, 0x8f, 2)
  else none

/-- Reads `count` further bytes of a sequence whose bits so far are `bits`; gives up at the
first byte that cannot continue it. -/
def decodeFurther : Nat → Nat → Bytes → Char × Bytes
  | 0, bits, rest => (Char.ofNat bits, rest)
  | _ + 1, _, [] => (replacementCharacter, [])
  | count + 1, bits, byte :: rest =>
    if 0x80 ≤ byte.toNat ∧ byte.toNat ≤ 0xbf then
      decodeFurther count (64 * bits + (byte.toNat - 0x80)) rest
    else (replacementCharacter, byte :: rest)

/-- The first character, or one replacement for the longest broken sequence. -/
def decodeFirst (lead : UInt8) (rest : Bytes) : Char × Bytes :=
  if lead.toNat < 0x80 then (Char.ofNat lead.toNat, rest)
  else
    match continuationRule lead.toNat, rest with
    | none, _ => (replacementCharacter, rest)
    | some _, [] => (replacementCharacter, [])
    | some (low, high, further), byte :: rest =>
      if low ≤ byte.toNat ∧ byte.toNat ≤ high then
        let leadBits := lead.toNat % (if further = 0 then 32 else if further = 1 then 16 else 8)
        decodeFurther further (64 * leadBits + (byte.toNat - 0x80)) rest
      else (replacementCharacter, byte :: rest)

def decodeLossy : Nat → Bytes → Text
  | 0, _ => []
  | _ + 1, [] => []
  | fuel + 1, lead :: rest =>
    let (character, rest) := decodeFirst lead rest
    character :: decodeLossy fuel rest

/-- `String::from_utf8_lossy`; every character takes at least one byte. -/
def fromUtf8Lossy (bytes : Bytes) : Text := decodeLossy bytes.length bytes

/-! ### Entry blocks -/

inductive DictionaryBinaryError where
  | truncated (context : String) (needed available : Nat)
  | invalidShardIndex (index slotCount : Nat)
  | invalidOffset (start last length : Nat)
  | missingEntryFields (expected found : Nat)
  deriving DecidableEq

def entryHeaderSize : Nat := 10

def requireBytes (binary : Bytes) (needed : Nat) (context : String) :
    Except DictionaryBinaryError Unit :=
  if binary.length < needed then .error (.truncated context needed binary.length) else .ok ()

theorem requireBytes_ok {binary : Bytes} {needed : Nat} (h : needed ≤ binary.length)
    (context : String) : requireBytes binary needed context = .ok () := by
  rw [requireBytes, if_neg (by omega)]

def readField (width : Nat) (binary : Bytes) (offset : Nat) (context : String) :
    Except DictionaryBinaryError Nat := do
  requireBytes binary (offset + width) context
  return fromLeBytes ((binary.drop offset).take width)

def readU16 : Bytes → Nat → String → Except DictionaryBinaryError Nat := readField 2

def readU32 : Bytes → Nat → String → Except DictionaryBinaryError Nat := readField 4

def readF32 (format : FloatFormat) (binary : Bytes) (offset : Nat) (context : String) :
    Except DictionaryBinaryError ℚ := do
  return format.fromBits (← readU32 binary offset context)

theorem readField_of_drop {binary part after : Bytes} {width offset : Nat} (hpos : 0 < width)
    (h : binary.drop offset = part ++ after) (hwidth : part.length = width) (context : String) :
    readField width binary offset context = .ok (fromLeBytes part) := by
  rw [readField, requireBytes_ok (le_length_of_drop h hwidth hpos), take_of_drop_eq h hwidth]
  rfl

theorem readField_ok {binary : Bytes} {width offset : Nat} (h : offset + width ≤ binary.length)
    (context : String) : ∃ value, readField width binary offset context = .ok value :=
  ⟨_, by rw [readField, requireBytes_ok h]; rfl⟩

def readEntryHeader (format : FloatFormat) (binary : Bytes) (index : Nat) :
    Except DictionaryBinaryError DictionaryEntry := do
  let offset := 2 + index * entryHeaderSize
  let leftId ← readU16 binary offset "left connection identifier"
  let rightId ← readU16 binary (offset + 2) "right connection identifier"
  let meaningId ← readU16 binary (offset + 4) "meaning identifier"
  let baseValue ← readF32 format binary (offset + 6) "entry value"
  return { word := [], ruby := [], leftId, rightId, meaningId, baseValue }

theorem readEntryHeader_ok {format : FloatFormat} {binary : Bytes} {index : Nat}
    (h : 2 + (index + 1) * entryHeaderSize ≤ binary.length) :
    ∃ entry, readEntryHeader format binary index = .ok entry := by
  rw [entryHeaderSize] at h
  have hfield : ∀ width offset, offset + width ≤ 10 → ∀ context, ∃ value,
      readField width binary (2 + index * 10 + offset) context = .ok value := by
    intro width offset hle context
    exact readField_ok (by omega) context
  obtain ⟨leftId, hleft⟩ := hfield 2 0 (by decide) "left connection identifier"
  obtain ⟨rightId, hright⟩ := hfield 2 2 (by decide) "right connection identifier"
  obtain ⟨meaningId, hmeaning⟩ := hfield 2 4 (by decide) "meaning identifier"
  obtain ⟨bits, hbits⟩ := hfield 4 6 (by decide) "entry value"
  rw [Nat.add_zero] at hleft
  rw [readEntryHeader]
  simp only [entryHeaderSize, readU16, readU32, readF32, hleft, hright, hmeaning, hbits]
  exact ⟨_, rfl⟩

def parseEntryBlock (format : FloatFormat) (binary : Bytes) :
    Except DictionaryBinaryError (List DictionaryEntry) := do
  let count ← readU16 binary 0 "entry count"
  let textOffset := 2 + count * entryHeaderSize
  requireBytes binary textOffset "entry headers"
  let entries ← (List.range count).mapM (readEntryHeader format binary)
  let fields := (binary.drop textOffset).splitOn 9
  let expected := count + 1
  if fields.length < expected then .error (.missingEntryFields expected fields.length)
  else
    let ruby := fromUtf8Lossy (fields.headD [])
    .ok ((entries.zip (fields.tail.take count)).map fun (entry, word) =>
      { entry with ruby, word := if word = [] then ruby else fromUtf8Lossy word })

/-- A slot ends where the next begins, the last one with the file. -/
def slotEnd (binary : Bytes) (slotCount index : Nat) : Except DictionaryBinaryError Nat :=
  if index + 1 = slotCount then .ok binary.length
  else readU32 binary (2 + (index + 1) * 4) "shard block offset"

def parseEntrySlot (format : FloatFormat) (binary : Bytes) (slotCount index : Nat) :
    Except DictionaryBinaryError (List DictionaryEntry) :=
  if slotCount ≤ index then .error (.invalidShardIndex index slotCount)
  else do
    let start ← readU32 binary (2 + index * 4) "shard block offset"
    let last ← slotEnd binary slotCount index
    if last < start ∨ binary.length < last then .error (.invalidOffset start last binary.length)
    else parseEntryBlock format ((binary.take last).drop start)

def parseEntryShard (format : FloatFormat) (binary : Bytes) (indices : List Nat) :
    Except DictionaryBinaryError (List DictionaryEntry) := do
  let slotCount ← readU16 binary 0 "shard slot count"
  requireBytes binary (2 + slotCount * 4) "shard offset table"
  return (← indices.mapM (parseEntrySlot format binary slotCount)).flatten

end BeanKey.Dictionary
