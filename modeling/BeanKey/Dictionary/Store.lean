import BeanKey.Dictionary.Binary
import BeanKey.Dictionary.LoudsBounds
import BeanKey.Library.Memo
import BeanKey.Library.Utf16

/-! The dictionary on disk: trees and entry shards by the first grapheme of a reading, lines of
connection costs, and the caches over them. -/
namespace BeanKey.Dictionary
open BeanKey.Lattice Packing Caching

def shardShift : Nat := 11
def shardMask : Nat := 2 ^ shardShift - 1
def defaultConnectionCost : ℚ := -25
def connectionCount : Nat := 1319

inductive DictionaryError where
  | io (path : Text)
  | binary (error : DictionaryBinaryError)
  /-- The binary error of a connection line. -/
  | invalidConnectionId (id : Int)
  | louds (error : LoudsError)
  deriving DecidableEq

inductive FileRead where
  | content (bytes : Bytes)
  | notFound
  | failed

/-- The files under the root of the dictionary, which do not change. -/
abbrev Files := Text → FileRead

namespace Files

def read (files : Files) (path : Text) : Except DictionaryError Bytes :=
  match files path with
  | .content bytes => .ok bytes
  | .notFound | .failed => .error (.io path)

def readOptional (files : Files) (path : Text) : Except DictionaryError (Option Bytes) :=
  match files path with
  | .content bytes => .ok (some bytes)
  | .notFound => .ok none
  | .failed => .error (.io path)

end Files

/-! ### Names of files -/

def hexDigit (digit : Nat) : Char := Char.ofNat (if digit < 10 then 48 + digit else 55 + digit)

def hexUnit (unit : UInt16) : Text :=
  [hexDigit (unit.toNat / 4096), hexDigit (unit.toNat / 256 % 16), hexDigit (unit.toNat / 16 % 16),
    hexDigit (unit.toNat % 16)]

def escapedIdentifier (value : Text) : Text :=
  if value = "user".toList ∨ value = "memory".toList ∨ value = "user_shortcuts".toList then value
  else '[' :: List.intercalate ['_'] ((Utf16.encode value).map hexUnit) ++ [']']

def shardName (identifier : Text) (shard : Nat) : Text :=
  escapedIdentifier identifier ++ (toString shard).toList

/-! ### Lines of connection costs -/

def toInt32 (bits : Nat) : Int := if bits < 2 ^ 31 then bits else (bits : Int) - 2 ^ 32

def connectionRecord (record : Bytes) : Int × Nat :=
  (toInt32 (fromLeBytes (record.take 4)), fromLeBytes (record.drop 4))

def fillLine (format : FloatFormat) : List (Int × Nat) → List ℚ → Except DictionaryError (List ℚ)
  | [], line => .ok line
  | (id, bits) :: records, line =>
    if 0 ≤ id ∧ id < line.length then fillLine format records
      (line.set id.toNat (format.fromBits bits))
    else .error (.invalidConnectionId id)

def parseConnectionCostLine (format : FloatFormat) (binary : Bytes) :
    Except DictionaryError (List ℚ) :=
  if binary.length < 8 then
    .error (.binary (.truncated "connection cost default record" 8 binary.length))
  else if binary.length % 8 ≠ 0 then
    .error (.binary
      (.truncated "connection cost record" ((binary.length / 8 + 1) * 8) binary.length))
  else
    match (binary.toChunks 8).map connectionRecord with
    | [] => .ok []
    | (id, bits) :: records =>
      if id ≠ -1 then .error (.invalidConnectionId id)
      else fillLine format records (List.replicate connectionCount (format.fromBits bits))

/-! ### The store -/

section
variable (unicode : UnicodeTable) (format : FloatFormat) (characterIds : CharacterIdMap)

/-- How a lookup gets at the trees, the shards and the lines. -/
structure Loading (m : Type → Type) where
  loadLouds : Text → m (Option Louds)
  loadShard : Text → m Bytes
  loadLine : Nat → m (Option (List ℚ))
  fail : {α : Type} → DictionaryError → m α

variable {m : Type → Type} [Monad m] (loading : Loading m)

def parseShard (binary : Bytes) (indices : List Nat) : m (List DictionaryEntry) :=
  match parseEntryShard format binary indices with
  | .ok entries => pure entries
  | .error error => loading.fail (.binary error)

/-- An index joins the others of its shard; the shards are in order. -/
def insertNode (shard index : Nat) : List (Nat × List Nat) → List (Nat × List Nat)
  | [] => [(shard, [index])]
  | (other, indices) :: rest =>
    if shard < other then (shard, [index]) :: (other, indices) :: rest
    else if shard = other then (other, indices ++ [index]) :: rest
    else (other, indices) :: insertNode shard index rest

def byShard (nodes : List Nat) : List (Nat × List Nat) :=
  nodes.foldl (fun shards node => insertNode (node >>> shardShift) (node &&& shardMask) shards) []

def loadShards (identifier : Text) : List (Nat × List Nat) → m (List DictionaryEntry)
  | [] => pure []
  | (shard, indices) :: shards => do
    let binary ← loading.loadShard (shardName identifier shard)
    let entries ← parseShard format loading binary indices
    let output ← loadShards identifier shards
    return entries ++ output

def loadEntries (identifier : Text) (nodes : List Nat) : m (List DictionaryEntry) :=
  loadShards format loading identifier (byShard nodes)

def lookupKey (ruby : Text) : Option (Grapheme × List UInt8) := do
  let identifier ← (graphemes unicode ruby).head?
  return (identifier, ← characterIds.encode unicode ruby)

def exactMatch (ruby : Text) : m (List DictionaryEntry) :=
  match lookupKey unicode characterIds ruby with
  | none => pure []
  | some (identifier, ids) => do
    match ← loading.loadLouds identifier with
    | none => pure []
    | some louds =>
      match louds.search ids with
      | none => pure []
      | some node => loadEntries format loading identifier [node]

/-- The loop over the graphemes, from the one at `index` on; `ids` are those before it. -/
def extendMatch (identifier : Text) (louds : Louds) :
    List Grapheme → Nat → List UInt8 → m (List DictionaryMatch)
  | [], _, _ => pure []
  | grapheme :: rest, index, ids =>
    match characterIds.id grapheme with
    | none => pure []
    | some id =>
      match louds.search (ids ++ [id]) with
      | none => pure []
      | some node => do
        let entries ← loadEntries format loading identifier [node]
        let output ← extendMatch identifier louds rest (index + 1) (ids ++ [id])
        return if entries = [] then output else ⟨index + 1, entries⟩ :: output

def matchesFromStart (ruby : Text) (maximumLength : Nat) : m (List DictionaryMatch) :=
  match (graphemes unicode ruby).head? with
  | none => pure []
  | some identifier => do
    match ← loading.loadLouds identifier with
    | none => pure []
    | some louds =>
      extendMatch format characterIds loading identifier louds
        ((graphemes unicode ruby).take maximumLength) 0 []

/-- The nodes below a key; the enumeration ends within the count of the nodes. -/
def descendantsWithin (louds : Louds) (ids : List UInt8) (maximumDepth maximumCount : Nat) :
    List Nat :=
  match louds.search ids with
  | none => []
  | some root =>
    match louds.walkFrom maximumDepth (louds.nodeCount + 1) 0 root maximumCount with
    | none => []
    | some walk => walk.output

def entriesAfterPrefix (ruby : Text) (maximumDepth maximumCount : Nat) :
    m (List DictionaryEntry) :=
  match lookupKey unicode characterIds ruby with
  | none => pure []
  | some (identifier, ids) => do
    match ← loading.loadLouds identifier with
    | none => pure []
    | some louds =>
      loadEntries format loading identifier (descendantsWithin louds ids maximumDepth maximumCount)

def connectionCost (former latter : Nat) : m ℚ := do
  let line ← loading.loadLine former
  return (line.bind fun costs => costs[latter]?).getD defaultConnectionCost

end

/-! ### From the files, and through the caches -/

namespace Files
variable (format : FloatFormat) (files : Files)

def loadLouds (identifier : Text) : Except DictionaryError (Option Louds) := do
  let escaped := escapedIdentifier identifier
  let bits ← files.readOptional ("louds/".toList ++ escaped ++ ".louds".toList)
  let chars ← files.readOptional ("louds/".toList ++ escaped ++ ".loudschars2".toList)
  match bits, chars with
  | some bits, some chars => (Louds.parse bits chars).mapError .louds |>.map some
  | _, _ => return none

def loadShard (name : Text) : Except DictionaryError Bytes :=
  files.read ("louds/".toList ++ name ++ ".loudstxt3".toList)

def loadLine (former : Nat) : Except DictionaryError (Option (List ℚ)) := do
  match ← files.readOptional ("cb/".toList ++ (toString former).toList ++ ".binary".toList) with
  | none => return none
  | some binary => return some (← parseConnectionCostLine format binary)

/-- Without a cache, the files are read for every lookup. -/
def loading : Loading (Except DictionaryError) where
  loadLouds := files.loadLouds
  loadShard := files.loadShard
  loadLine := files.loadLine format
  fail := .error

end Files

structure DictionaryStore where
  louds : Cache Text (Option Louds) := Cache.empty
  shards : Cache Text Bytes := Cache.empty
  connectionLines : Cache Nat (Option (List ℚ)) := Cache.empty

def DictionaryStore.loading (format : FloatFormat) (files : Files) :
    Loading (ExceptT DictionaryError (StateM DictionaryStore)) where
  loadLouds := Memo.remember DictionaryStore.louds
    (fun identifier louds store => { store with louds := store.louds.insert identifier louds })
    files.loadLouds
  loadShard := Memo.remember DictionaryStore.shards
    (fun name binary store => { store with shards := store.shards.insert name binary })
    files.loadShard
  loadLine := Memo.remember DictionaryStore.connectionLines
    (fun former line store =>
      { store with connectionLines := store.connectionLines.insert former line })
    (files.loadLine format)
  fail error := Memo.lift (.error error)

/-! ### Lookups -/

inductive Query where
  | exactMatch (ruby : Text)
  | matchesFromStart (ruby : Text) (maximumLength : Nat)
  | entriesAfterPrefix (ruby : Text) (maximumDepth maximumCount : Nat)
  | connectionCost (former latter : Nat)

inductive Answer where
  | entries (entries : List DictionaryEntry)
  | found (found : List DictionaryMatch)
  | cost (cost : ℚ)

section
variable (unicode : UnicodeTable) (format : FloatFormat) (characterIds : CharacterIdMap)

def lookUp {m : Type → Type} [Monad m] (loading : Loading m) : Query → m Answer
  | .exactMatch ruby => .entries <$> exactMatch unicode format characterIds loading ruby
  | .matchesFromStart ruby maximumLength =>
    .found <$> matchesFromStart unicode format characterIds loading ruby maximumLength
  | .entriesAfterPrefix ruby maximumDepth maximumCount =>
    .entries <$> entriesAfterPrefix unicode format characterIds loading ruby
      maximumDepth maximumCount
  | .connectionCost former latter => .cost <$> connectionCost loading former latter

end

/-! ### The caches make no difference -/

/-- Two ways to load that give the same, from every good state. -/
structure Loading.Agrees {S : Type} (good : S → Prop)
    (kept : Loading (ExceptT DictionaryError (StateM S)))
    (direct : Loading (Except DictionaryError)) :
    Prop where
  louds : ∀ identifier, Memo.Answers good (kept.loadLouds identifier) (direct.loadLouds identifier)
  shard : ∀ name, Memo.Answers good (kept.loadShard name) (direct.loadShard name)
  line : ∀ former, Memo.Answers good (kept.loadLine former) (direct.loadLine former)
  fail : ∀ {α : Type} (error : DictionaryError),
    Memo.Answers good (kept.fail error : ExceptT DictionaryError (StateM S) α) (direct.fail error)

section
variable {S : Type} {good : S → Prop} {kept : Loading (ExceptT DictionaryError (StateM S))}
  {direct : Loading (Except DictionaryError)} {unicode : UnicodeTable} {format : FloatFormat}
  {characterIds : CharacterIdMap}

namespace Loading.Agrees

theorem parseShard (h : kept.Agrees good direct) (binary : Bytes) (indices : List Nat) :
    Memo.Answers good (parseShard format kept binary indices)
      (parseShard format direct binary indices) := by
  unfold Dictionary.parseShard
  cases parseEntryShard format binary indices with
  | ok entries => exact .pure entries
  | error error => exact h.fail _

theorem loadEntries (h : kept.Agrees good direct) (identifier : Text) (nodes : List Nat) :
    Memo.Answers good (loadEntries format kept identifier nodes)
      (loadEntries format direct identifier nodes) := by
  unfold Dictionary.loadEntries
  induction byShard nodes with
  | nil => exact .pure []
  | cons shard shards ih =>
    obtain ⟨shard, indices⟩ := shard
    unfold loadShards
    refine (h.shard _).bind fun binary => (h.parseShard binary indices).bind fun entries => ?_
    exact ih.bind fun output => .pure (entries ++ output)

theorem exactMatch (h : kept.Agrees good direct) (ruby : Text) :
    Memo.Answers good (exactMatch unicode format characterIds kept ruby)
      (exactMatch unicode format characterIds direct ruby) := by
  unfold Dictionary.exactMatch
  cases lookupKey unicode characterIds ruby with
  | none => exact .pure []
  | some key =>
    refine (h.louds key.1).bind fun louds => ?_
    cases louds with
    | none => exact .pure []
    | some louds =>
      dsimp only
      cases louds.search key.2 with
      | none => exact .pure []
      | some node => exact h.loadEntries key.1 [node]

theorem extendMatch (h : kept.Agrees good direct) (identifier : Text) (louds : Louds)
    (rest : List Grapheme) (index : Nat) (ids : List UInt8) :
    Memo.Answers good (extendMatch format characterIds kept identifier louds rest index ids)
      (extendMatch format characterIds direct identifier louds rest index ids) := by
  induction rest generalizing index ids with
  | nil => exact .pure []
  | cons grapheme rest ih =>
    unfold Dictionary.extendMatch
    cases characterIds.id grapheme with
    | none => exact .pure []
    | some id =>
      dsimp only
      cases louds.search (ids ++ [id]) with
      | none => exact .pure []
      | some node =>
        refine (h.loadEntries identifier [node]).bind fun entries => ?_
        exact (ih (index + 1) (ids ++ [id])).bind fun output => .pure _

theorem matchesFromStart (h : kept.Agrees good direct) (ruby : Text) (maximumLength : Nat) :
    Memo.Answers good (matchesFromStart unicode format characterIds kept ruby maximumLength)
      (matchesFromStart unicode format characterIds direct ruby maximumLength) := by
  unfold Dictionary.matchesFromStart
  cases (graphemes unicode ruby).head? with
  | none => exact .pure []
  | some identifier =>
    refine (h.louds identifier).bind fun louds => ?_
    cases louds with
    | none => exact .pure []
    | some louds => exact h.extendMatch identifier louds _ 0 []

theorem entriesAfterPrefix (h : kept.Agrees good direct) (ruby : Text)
    (maximumDepth maximumCount : Nat) :
    Memo.Answers good
      (entriesAfterPrefix unicode format characterIds kept ruby maximumDepth maximumCount)
      (entriesAfterPrefix unicode format characterIds direct ruby maximumDepth maximumCount) := by
  unfold Dictionary.entriesAfterPrefix
  cases lookupKey unicode characterIds ruby with
  | none => exact .pure []
  | some key =>
    refine (h.louds key.1).bind fun louds => ?_
    cases louds with
    | none => exact .pure []
    | some louds => exact h.loadEntries key.1 _

theorem lookUp (h : kept.Agrees good direct) (query : Query) :
    Memo.Answers good (lookUp unicode format characterIds kept query)
      (lookUp unicode format characterIds direct query) := by
  cases query with
  | exactMatch ruby => exact (h.exactMatch ruby).map _
  | matchesFromStart ruby maximumLength => exact (h.matchesFromStart ruby maximumLength).map _
  | entriesAfterPrefix ruby maximumDepth maximumCount =>
    exact (h.entriesAfterPrefix ruby maximumDepth maximumCount).map _
  | connectionCost former latter => exact ((h.line former).bind fun line => .pure _).map _

end Loading.Agrees
end

structure DictionaryStore.Holds (format : FloatFormat) (files : Files) (store : DictionaryStore) :
    Prop where
  louds : ∀ identifier value, store.louds identifier = some value →
    files.loadLouds identifier = .ok value
  shards : ∀ name value, store.shards name = some value → files.loadShard name = .ok value
  lines : ∀ former value, store.connectionLines former = some value →
    files.loadLine format former = .ok value

theorem DictionaryStore.loading_agrees (format : FloatFormat) (files : Files) :
    (DictionaryStore.loading format files).Agrees (DictionaryStore.Holds format files)
      (files.loading format) where
  louds identifier := by
    refine .remember (fun store value h => h.louds identifier value) fun store value h hload => ?_
    refine ⟨fun other found hfound => ?_, h.shards, h.lines⟩
    obtain ⟨rfl, rfl⟩ | hfound := insert_eq_some hfound
    · exact hload
    · exact h.louds other found hfound
  shard name := by
    refine .remember (fun store value h => h.shards name value) fun store value h hload => ?_
    refine ⟨h.louds, fun other found hfound => ?_, h.lines⟩
    obtain ⟨rfl, rfl⟩ | hfound := insert_eq_some hfound
    · exact hload
    · exact h.shards other found hfound
  line former := by
    refine .remember (fun store value h => h.lines former value) fun store value h hload => ?_
    refine ⟨h.louds, h.shards, fun other found hfound => ?_⟩
    obtain ⟨rfl, rfl⟩ | hfound := insert_eq_some hfound
    · exact hload
    · exact h.lines other found hfound
  fail error := .lift (.error error)

/-- Lookups in any order, failed ones among them, answer each what the files alone would: nothing
that a cache holds is ever in the way of another lookup. -/
theorem lookups_uncached (unicode : UnicodeTable) (format : FloatFormat)
    (characterIds : CharacterIdMap) (files : Files) (queries : List Query) :
    Memo.runAll (queries.map
        (lookUp unicode format characterIds (DictionaryStore.loading format files))) {} =
      queries.map (lookUp unicode format characterIds (files.loading format)) :=
  Memo.Answers.runAll (fun query => (DictionaryStore.loading_agrees format files).lookUp query)
    queries ⟨by simp [Cache.empty], by simp [Cache.empty], by simp [Cache.empty]⟩

/-! ### A dictionary of one word -/

deriving instance DecidableEq for Louds, DictionaryMatch

def zeroFormat : FloatFormat := ⟨fun _ => 0, fun _ => 0⟩

def smallBits : Bytes := encodeLouds [true, false, true, false, false]

def smallShard : Bytes :=
  [3, 0, 14, 0, 0, 0, 16, 0, 0, 0, 18, 0, 0, 0, 0, 0, 0, 0] ++
    [1, 0, 5, 0, 5, 0, 1, 0, 0, 0, 0, 0] ++ utf8 ['ア', '\t']

def smallFiles : Files := fun path =>
  if path = "louds/[30A2].louds".toList ∨ path = "user.louds".toList then .content smallBits
  else if path = "louds/[30A2].loudschars2".toList ∨ path = "user.loudschars2".toList then
    .content [0, 0, 0]
  else if path = "louds/[30A2]0.loudstxt3".toList ∨ path = "user0.loudstxt3".toList then
    .content smallShard
  else .notFound

theorem smallIds_length : ([['ア']] : List Grapheme).length ≤ 256 := by decide

def smallIds : CharacterIdMap := ⟨[['ア']], smallIds_length⟩

def smallEntry : DictionaryEntry where
  word := ['ア']
  ruby := ['ア']
  leftId := 5
  rightId := 5
  meaningId := 1
  baseValue := 0

end BeanKey.Dictionary
