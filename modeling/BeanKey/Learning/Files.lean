import BeanKey.Learning.Trie
import BeanKey.Library.Crash

/-! The files of the learning memory: their names, what a save writes into them and how a
store reads them. -/
namespace BeanKey.Learning
open BeanKey.Lattice Packing
open BeanKey.Dictionary (CharacterIdMap FloatFormat Louds parseEntryShard)

abbrev FileName := Text

abbrev Directory := Crash.Files FileName Bytes

def loudsFile : FileName := "memory.louds".toList
def loudsCharsFile : FileName := "memory.loudschars2".toList
def metadataFile : FileName := "memory.memorymetadata".toList
def pauseFile : FileName := ".pause".toList

def shardFile (index : Nat) : FileName :=
  "memory".toList ++ Nat.toDigits 10 index ++ ".loudstxt3".toList

def temporaryFile (name : FileName) : FileName := name ++ ".2".toList

def shardSize : Nat := 2048

def metadataElementSize : Nat := 6

inductive LearningError where
  | io (path : FileName)
  | invalidData (reason : String)
  | poisoned
  deriving DecidableEq

/-! ### Encoding -/

structure EncodedMemory where
  louds : Bytes
  characters : Bytes
  metadata : Bytes
  shards : List Bytes

variable (unicode : UnicodeTable) (format : FloatFormat)

def encodeEntryHeader (record : LearningRecord) : Bytes :=
  toLeBytes 2 record.entry.leftId ++ toLeBytes 2 record.entry.rightId ++
    toLeBytes 2 record.entry.meaningId ++
    toLeBytes 4 (format.toBits (learningValue unicode record.count record.entry.ruby))

def encodeWord (ruby : Text) (record : LearningRecord) : Bytes :=
  9 :: if record.entry.word = ruby then [] else utf8 record.entry.word

def encodeEntryBlock (block : List LearningRecord) : Bytes :=
  let ruby := (block.head?.map fun record => record.entry.ruby).getD []
  toLeBytes 2 (min block.length 65535) ++ block.flatMap (encodeEntryHeader unicode format) ++
    utf8 ruby ++ block.flatMap (encodeWord ruby)

def payloadOffsets (offset : Nat) : List Bytes → List Nat
  | [] => []
  | payload :: rest => offset :: payloadOffsets (offset + payload.length) rest

def encodeShard (payloads : List Bytes) : Bytes :=
  toLeBytes 2 (min payloads.length 65535) ++
    ((payloadOffsets (2 + payloads.length * 4) payloads).flatMap fun offset =>
      toLeBytes 4 (min offset 4294967295)) ++
    payloads.flatten

def encodeEntryShard (blocks : List (List LearningRecord)) : Bytes :=
  encodeShard (blocks.map (encodeEntryBlock unicode format))

def encodeMetadataElement (record : LearningRecord) : Bytes :=
  toLeBytes 2 record.lastUsedDay.toNat ++ toLeBytes 2 record.lastUpdatedDay.toNat ++
    [record.count, 0]

def encodeMetadataBlock (block : List LearningRecord) : Bytes :=
  UInt8.ofNat (min block.length 255) :: block.flatMap encodeMetadataElement

def encodeMetadata (blocks : List (List LearningRecord)) : Bytes :=
  toLeBytes 4 (min blocks.length 4294967295) ++ blocks.flatMap encodeMetadataBlock

/-- The blocks of the trie, each cut to what a metadata block can count, by their records. -/
def recordBlocks (records : List LearningRecord) (characterIds : CharacterIdMap) :
    List (List LearningRecord) :=
  (MemoryTrie.new unicode records characterIds).encode.blocks.map fun block =>
    (block.take 255).filterMap fun index => records[index]?

def encodeFiles (records : List LearningRecord) (characterIds : CharacterIdMap) :
    EncodedMemory where
  louds := (MemoryTrie.new unicode records characterIds).encode.louds
  characters := (MemoryTrie.new unicode records characterIds).encode.characters
  metadata := encodeMetadata (recordBlocks unicode records characterIds)
  shards := (chunks shardSize (recordBlocks unicode records characterIds)).map
    (encodeEntryShard unicode format)

/-! ### Decoding -/

def readRequired (directory : Directory) (name : FileName) : Except LearningError Bytes :=
  match directory name with
  | some bytes => .ok bytes
  | none => .error (.io name)

def readArray (width : Nat) (bytes : Bytes) (cursor : Nat) : Except LearningError Nat :=
  if cursor + width ≤ bytes.length then .ok (fromLeBytes ((bytes.drop cursor).take width))
  else .error (.invalidData "truncated numeric field")

structure MetadataElement where
  lastUsedDay : UInt16
  lastUpdatedDay : UInt16
  count : UInt8

def readElement (metadata : Bytes) (cursor : Nat) :
    Except LearningError (MetadataElement × Nat) := do
  let lastUsedDay ← readArray 2 metadata cursor
  let lastUpdatedDay ← readArray 2 metadata (cursor + 2)
  match metadata[cursor + 4]? with
  | none => .error (.invalidData "truncated metadata count")
  | some count =>
    .ok (⟨UInt16.ofNat lastUsedDay, UInt16.ofNat lastUpdatedDay, count⟩,
      cursor + 4 + (metadataElementSize - 4))

def readElements (metadata : Bytes) :
    Nat → Nat → Except LearningError (List MetadataElement × Nat)
  | 0, cursor => .ok ([], cursor)
  | count + 1, cursor => do
    let (element, cursor) ← readElement metadata cursor
    let (rest, cursor) ← readElements metadata count cursor
    return (element :: rest, cursor)

def readBlocks (metadata : Bytes) :
    Nat → Nat → Except LearningError (List (List MetadataElement) × Nat)
  | 0, cursor => .ok ([], cursor)
  | nodes + 1, cursor =>
    match metadata[cursor]? with
    | none => .error (.invalidData "truncated metadata block")
    | some count => do
      let (block, cursor) ← readElements metadata count.toNat (cursor + 1)
      let (rest, cursor) ← readBlocks metadata nodes cursor
      return (block :: rest, cursor)

def loadShard (directory : Directory) (loaded : Option (Nat × Bytes)) (index : Nat) :
    Except LearningError Bytes :=
  match loaded with
  | some (other, shard) =>
    if other = index then .ok shard else readRequired directory (shardFile index)
  | none => readRequired directory (shardFile index)

def nodeRecords (entries : List DictionaryEntry) (block : List MetadataElement) :
    List LearningRecord :=
  (entries.zip block).map fun (entry, element) =>
    { entry
      lastUsedDay := element.lastUsedDay
      lastUpdatedDay := element.lastUpdatedDay
      count := element.count }

def readEntries (shard : Bytes) (node : Nat) (block : List MetadataElement) :
    Except LearningError (List LearningRecord) :=
  match parseEntryShard format shard [node % shardSize] with
  | .error _ => .error (.invalidData "invalid learning entry shard")
  | .ok entries =>
    if entries.length ≠ block.length then .error (.invalidData "entry and metadata counts differ")
    else .ok (nodeRecords entries block)

def readRecords (directory : Directory) :
    Nat → Option (Nat × Bytes) → List (List MetadataElement) →
      Except LearningError (List LearningRecord)
  | _, _, [] => .ok []
  | node, loaded, block :: rest => do
    let shard ← loadShard directory loaded (node / shardSize)
    let records ← readEntries format shard node block
    let others ← readRecords directory (node + 1) (some (node / shardSize, shard)) rest
    return records ++ others

def readMetadata (metadata louds characters : Bytes) :
    Except LearningError (List (List MetadataElement)) :=
  match Louds.parse louds characters with
  | .error _ => .error (.invalidData "invalid LOUDS topology")
  | .ok louds => do
    let nodeCount ← readArray 4 metadata 0
    if nodeCount ≠ characters.length ∨ nodeCount ≠ louds.nodeCount then
      .error (.invalidData "inconsistent node counts")
    else
      let (blocks, cursor) ← readBlocks metadata nodeCount 4
      if cursor ≠ metadata.length then .error (.invalidData "trailing metadata bytes")
      else .ok blocks

def decodeDirectory (directory : Directory) : Except LearningError (List LearningRecord) :=
  match directory metadataFile with
  | none => .ok []
  | some metadata => do
    let louds ← readRequired directory loudsFile
    let characters ← readRequired directory loudsCharsFile
    let blocks ← readMetadata metadata louds characters
    readRecords format directory 0 none blocks

end BeanKey.Learning
