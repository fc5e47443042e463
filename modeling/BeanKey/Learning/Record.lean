import BeanKey.Dictionary.Binary
import BeanKey.Dictionary.Louds

/-! Learning records, and how they are merged, decayed and chosen for a save. -/
namespace BeanKey.Learning
open BeanKey.Lattice BeanKey.Dictionary

inductive LearningMode where
  | inputAndOutput
  | onlyOutput
  | nothing
  deriving DecidableEq

def LearningMode.usesMemory (mode : LearningMode) : Bool := mode ≠ .nothing

def LearningMode.updatesMemory (mode : LearningMode) : Bool := mode = .inputAndOutput

structure LearningRecord where
  entry : DictionaryEntry
  lastUsedDay : UInt16
  lastUpdatedDay : UInt16
  count : UInt8
  deriving DecidableEq

def isControl (character : Char) : Bool :=
  character.toNat < 0x20 || (0x7f ≤ character.toNat && character.toNat ≤ 0x9f)

def validLearningEntry (unicode : UnicodeTable) (entry : DictionaryEntry)
    (characterIds : CharacterIdMap) : Bool :=
  !entry.word.any isControl && entry.ruby ≠ [] && !entry.ruby.any isControl &&
    (characterIds.encode unicode entry.ruby).isSome

def sameEntry (left right : DictionaryEntry) : Bool :=
  left.ruby = right.ruby && left.word = right.word && left.leftId = right.leftId &&
    left.rightId = right.rightId

def saturatingAddDay (day : UInt16) (count : Nat) : UInt16 :=
  UInt16.ofNat (min (day.toNat + count) 65535)

def saturatingAddCount (left right : UInt8) : UInt8 :=
  UInt8.ofNat (min (left.toNat + right.toNat) 255)

def mergeInto (record incoming : LearningRecord) : LearningRecord where
  entry := incoming.entry
  lastUsedDay := max record.lastUsedDay incoming.lastUsedDay
  lastUpdatedDay := max record.lastUpdatedDay incoming.lastUpdatedDay
  count := saturatingAddCount record.count incoming.count

def mergeRecord : List LearningRecord → LearningRecord → List LearningRecord
  | [], incoming => [incoming]
  | record :: rest, incoming =>
    if sameEntry record.entry incoming.entry then mergeInto record incoming :: rest
    else record :: mergeRecord rest incoming

/-- `learning_value`, in exact arithmetic. -/
def learningValue (unicode : UnicodeTable) (count : UInt8) (ruby : Text) : ℚ :=
  let length : ℚ := max (graphemes unicode ruby).length 1
  let distance : ℚ := 1 - count.toNat / 255
  (-1 : ℚ) - 4 / length - 3 * distance ^ 3

/-- Half the count for every full period since the last update. -/
def halve (today : UInt16) (record : LearningRecord) : LearningRecord :=
  if today.toNat - record.lastUpdatedDay.toNat > 32 then
    halve today
      { record with
        count := record.count / 2
        lastUpdatedDay := saturatingAddDay record.lastUpdatedDay 32 }
  else record
termination_by today.toNat - record.lastUpdatedDay.toNat
decreasing_by
  have := today.toNat_lt
  simp only [saturatingAddDay, UInt16.toNat_ofNat']
  omega

def decayRecord (today : UInt16) (record : LearningRecord) : Option LearningRecord :=
  let record := if today < record.lastUsedDay ∨ today < record.lastUpdatedDay then
      { record with lastUsedDay := today, lastUpdatedDay := today, count := 1 }
    else record
  if today.toNat - record.lastUsedDay.toNat ≥ 128 then none
  else
    let record := halve today record
    if record.count > 0 then some record else none

def decay (records : List LearningRecord) (today : UInt16) : List LearningRecord :=
  records.filterMap (decayRecord today)

structure LearningState where
  characterIds : CharacterIdMap
  mode : LearningMode
  maxCount : Nat
  today : UInt16
  persisted : List LearningRecord
  temporary : List LearningRecord

inductive SaveCall where
  | commit
  | forget (entries : List DictionaryEntry)

namespace LearningState

def recordsToSave (state : LearningState) : SaveCall → Option (List LearningRecord)
  | .commit =>
    if !state.mode.updatesMemory || state.temporary.isEmpty then none
    else some (state.temporary.foldl mergeRecord state.persisted)
  | .forget entries =>
    if !state.mode.updatesMemory then none
    else some (state.persisted.filter fun record =>
      record.entry.word ∉ entries.map DictionaryEntry.word)

def savedRecords (state : LearningState) (records : List LearningRecord) : List LearningRecord :=
  ((decay records state.today).mergeSort fun first second =>
    decide (second.lastUsedDay ≤ first.lastUsedDay)).take state.maxCount

end LearningState

end BeanKey.Learning
