import BeanKey.Learning.Index
import BeanKey.Learning.Directory
import BeanKey.Lattice.Candidate

/-! The learning store: its state with the two indexes, and what each call makes of them. -/
namespace BeanKey.Learning
open BeanKey.Lattice
open BeanKey.Dictionary (CharacterIdMap FloatFormat)

/-! ### The entries a candidate teaches -/

def learnsIndividualWord (entry : DictionaryEntry) : Bool :=
  let left := entry.leftId
  !decide (147 ≤ left ∧ left ≤ 554) && !decide (557 ≤ left ∧ left ≤ 560) &&
    !decide (1297 ≤ left ∧ left ≤ 1305) && !decide (6 ≤ left ∧ left ≤ 9) &&
      !decide (left = 0 ∨ left = 1316)

/-- The loop over the entries, with the entry before: a clause starts or goes on. -/
def clauseRangesFrom (previous : Option DictionaryEntry) (ranges : List (Nat × Nat)) (index : Nat) :
    List DictionaryEntry → List (Nat × Nat)
  | [] => ranges
  | entry :: rest =>
    let starts := match previous with
      | none => true
      | some previous => isClause previous.rightId entry.leftId
    clauseRangesFrom (some entry)
      (if starts then ranges ++ [(index, index + 1)]
        else ranges.modify (ranges.length - 1) fun (start, _) => (start, index + 1))
      (index + 1) rest

def learnedClauseRanges (entries : List DictionaryEntry) : List (Nat × Nat) :=
  clauseRangesFrom none [] 0 entries

/-- The entries from the first of the range to before its end, as one; a range is not empty. -/
def joinEntries (entries : List DictionaryEntry) : Option DictionaryEntry :=
  match entries.head?, entries.getLast? with
  | some first, some last => some {
      word := (entries.map DictionaryEntry.word).flatten
      ruby := (entries.map DictionaryEntry.ruby).flatten
      leftId := first.leftId
      rightId := last.rightId
      meaningId := last.meaningId
      baseValue := (entries.map DictionaryEntry.baseValue).sum }
  | _, _ => none

/-- Two clauses after each other are learned as one entry; `update_start` is 0 for a whole
candidate. -/
def learnedClauseEntriesAfter (entries : List DictionaryEntry) (updateStart : Nat) :
    List DictionaryEntry :=
  let ranges := learnedClauseRanges entries
  ((ranges.zip ranges.tail).filter fun (_, second) => updateStart < second.2).filterMap
    fun (first, second) => joinEntries ((entries.take second.2).drop first.1)

def joinWhole (entries : List DictionaryEntry) : List DictionaryEntry :=
  if 1 < entries.length then (joinEntries entries).toList else []

/-- What `learn` and `learn_post_prediction` hand to `memorize`, in order: the words of the update,
the clauses that end in it, and the whole. -/
def taughtEntries (kept update : List DictionaryEntry) : List DictionaryEntry :=
  update.filter learnsIndividualWord ++ learnedClauseEntriesAfter (kept ++ update) kept.length ++
    joinWhole (kept ++ update)

def learnedEntries (entries : List DictionaryEntry) : List DictionaryEntry :=
  taughtEntries [] entries

inductive PostPredictionKind where
  | additional (entries : List DictionaryEntry)
  | replacement (targetEntries replacementEntries : List DictionaryEntry)

def postPredictionEntries (entries : List DictionaryEntry) :
    PostPredictionKind → List DictionaryEntry
  | .additional added => taughtEntries entries added
  | .replacement targetEntries replacementEntries =>
    taughtEntries (entries.take (entries.length - targetEntries.length)) replacementEntries

/-! ### The store -/

structure LearningStore where
  state : LearningState
  persistedIndex : MemoryLouds
  temporaryIndex : MemoryTrie

namespace LearningStore
variable (unicode : UnicodeTable)

def ofState (state : LearningState) : LearningStore where
  state
  persistedIndex := .new unicode state.persisted state.characterIds
  temporaryIndex := .empty

def rebuild (store : LearningStore) (persisted temporary : List LearningRecord) :
    LearningStore where
  state := { store.state with persisted, temporary }
  persistedIndex := .new unicode persisted store.state.characterIds
  temporaryIndex := .new unicode temporary store.state.characterIds

/-- `refresh_day`, which `lock` calls with the clock's reading. -/
def refreshDay (store : LearningStore) (today : UInt16) : LearningStore :=
  if store.state.today = today then store
  else
    let store := store.rebuild unicode (decay store.state.persisted today)
      (decay store.state.temporary today)
    { store with state := { store.state with today } }

/-- The place of the record of the same entry, found through the index. -/
def findTemporary (store : LearningStore) (ids : List UInt8)
    (entry : DictionaryEntry) : Option Nat :=
  (store.temporaryIndex.lookup ids .exact).find? fun index =>
    (store.state.temporary[index]?).any fun record => sameEntry record.entry entry

def countAgain (today : UInt16) (entry : DictionaryEntry) (record : LearningRecord) :
    LearningRecord :=
  { record with count := saturatingAddCount record.count 1, lastUsedDay := today, entry }

def memorize (store : LearningStore) (entry : DictionaryEntry) : LearningStore :=
  if validLearningEntry unicode entry store.state.characterIds then
    match store.state.characterIds.encode unicode entry.ruby with
    | none => store
    | some ids =>
      match store.findTemporary ids entry with
      | some index =>
        { store with
          state := { store.state with
            temporary := store.state.temporary.modify index (countAgain store.state.today entry) } }
      | none =>
        { store with
          state := { store.state with
            temporary := store.state.temporary ++
              [⟨entry, store.state.today, store.state.today, 1⟩] }
          temporaryIndex := store.temporaryIndex.insert ids store.state.temporary.length }
  else store

theorem memorize_characterIds (store : LearningStore) (entry : DictionaryEntry) :
    (store.memorize unicode entry).state.characterIds = store.state.characterIds := by
  rw [memorize]
  split
  · split
    · rfl
    · split <;> rfl
  · rfl

def learn (store : LearningStore) (entries : List DictionaryEntry) : LearningStore :=
  if store.state.mode.updatesMemory then entries.foldl (memorize unicode) store else store

def forgetTemporary (store : LearningStore) (entries : List DictionaryEntry) : LearningStore :=
  if store.state.mode.updatesMemory then
    let temporary := store.state.temporary.filter fun record =>
      (record.entry.ruby, record.entry.word) ∉ entries.map fun entry => (entry.ruby, entry.word)
    { store with
      state := { store.state with temporary }
      temporaryIndex := .new unicode temporary store.state.characterIds }
  else store

/-- The saved records take the place of the persisted ones. -/
def publish (store : LearningStore) (records : List LearningRecord) : LearningStore :=
  let persisted := store.state.savedRecords records
  { store with
    state := { store.state with persisted }
    persistedIndex := .new unicode persisted store.state.characterIds }

def clearTemporary (store : LearningStore) : LearningStore :=
  { store with state := { store.state with temporary := [] }, temporaryIndex := .empty }

def clear (store : LearningStore) : LearningStore :=
  ofState unicode { store.state with persisted := [], temporary := [] }

/-! ### Looking up -/

/-- The identifiers of the reading; only a prefix lookup stops at an unknown grapheme. -/
def lookupIds (characterIds : CharacterIdMap) (kind : MatchKind) :
    List Grapheme → Option (List UInt8)
  | [] => some []
  | grapheme :: rest =>
    match characterIds.id grapheme with
    | some id => (lookupIds characterIds kind rest).map (id :: ·)
    | none => if kind = .prefixes then some [] else none

def learnedEntry (record : LearningRecord) : DictionaryEntry :=
  { record.entry with
    adjustment := learningValue unicode record.count record.entry.ruby - record.entry.baseValue
    metadata := { record.entry.metadata with learned := true } }

def positions (characterIds : CharacterIdMap) (find : List UInt8 → MatchKind → List Nat)
    (kind : MatchKind) (ruby : Text) (maximumLength : Nat) : List Nat :=
  if ruby = [] then []
  else
    match lookupIds characterIds kind ((graphemes unicode ruby).take maximumLength) with
    | none => []
    | some ids => find ids kind

/-- The entries of a lookup; a position outside of its layer is a panic, and `none`. -/
def lookup (store : LearningStore) (kind : MatchKind) (ruby : Text) (maximumLength : Nat) :
    Option (List DictionaryEntry) :=
  if store.state.mode.usesMemory then do
    let persisted
        ← (positions unicode store.state.characterIds store.persistedIndex.lookup kind ruby
      maximumLength).mapM fun index => store.state.persisted[index]?
    let temporary
        ← (positions unicode store.state.characterIds store.temporaryIndex.lookup kind ruby
      maximumLength).mapM fun index => store.state.temporary[index]?
    return (persisted ++ temporary).map (learnedEntry unicode)
  else some []

end LearningStore

end BeanKey.Learning
