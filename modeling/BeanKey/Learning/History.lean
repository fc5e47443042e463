import BeanKey.Learning.Consistent
import BeanKey.Learning.Durable

/-! Every history of a learning store over its directory: calls at any clock readings, saves and
resets that fail, and openings anew. -/
namespace BeanKey.Learning
open BeanKey.Lattice Crash
open BeanKey.Dictionary (CharacterIdMap FloatFormat)

structure World where
  store : LearningStore
  directory : Directory

inductive Event where
  | lookup (kind : MatchKind) (ruby : Text) (maximumLength : Nat)
  | learn (candidate : List DictionaryEntry)
  | learnPostPrediction (candidate : List DictionaryEntry) (prediction : PostPredictionKind)
  | save (call : SaveCall)
  | saveFails (call : SaveCall)
  | reset
  | resetFails
  | reopen (mode : LearningMode) (maxCount : Nat)
  | reopenFails

namespace LearningStore

def beforeSave (unicode : UnicodeTable) (store : LearningStore) : SaveCall → LearningStore
  | .commit => store
  | .forget entries => store.forgetTemporary unicode entries

def afterSave (unicode : UnicodeTable) (store : LearningStore) (records : List LearningRecord) :
    SaveCall → LearningStore
  | .commit => (store.publish unicode records).clearTemporary
  | .forget _ => store.publish unicode records

end LearningStore

def PostPredictionKind.entries : PostPredictionKind → List DictionaryEntry
  | .additional entries => entries
  | .replacement targetEntries replacementEntries => targetEntries ++ replacementEntries

section
variable (unicode : UnicodeTable) (format : FloatFormat)

/-- The store a saving call finds after the day refresh, and what it has done before it saves. -/
def World.saving (world : World) (today : UInt16) (call : SaveCall) : LearningStore :=
  (world.store.refreshDay unicode today).beforeSave unicode call

/-- One call at one reading of the clock. Identifiers are `u16`. -/
inductive Step (today : UInt16) : World → Event → World → Prop
  | lookup (world : World) (kind : MatchKind) (ruby : Text) (maximumLength : Nat) :
      Step today world (.lookup kind ruby maximumLength)
        { world with store := world.store.refreshDay unicode today }
  | learn (world : World) {candidate : List DictionaryEntry}
      (hids : ∀ entry ∈ candidate, IsWord16 entry) :
      Step today world (.learn candidate)
        { world with
          store := (world.store.refreshDay unicode today).learn unicode (learnedEntries candidate) }
  | learnPostPrediction (world : World) {candidate : List DictionaryEntry}
      {prediction : PostPredictionKind}
      (hids : ∀ entry ∈ candidate ++ prediction.entries, IsWord16 entry) :
      Step today world (.learnPostPrediction candidate prediction)
        { world with
          store := (world.store.refreshDay unicode today).learn unicode
            (postPredictionEntries candidate prediction) }
  | saveNothing (world : World) {call : SaveCall}
      (hnone : (world.saving unicode today call).state.recordsToSave call = none) :
      Step today world (.save call) { world with store := world.saving unicode today call }
  | save (world : World) {call : SaveCall} {records : List LearningRecord} {directory : Directory}
      (hrecords : (world.saving unicode today call).state.recordsToSave call = some records)
      (hrun : runAll (saveRecords unicode format (world.saving unicode today call).state records)
        world.directory = some directory) :
      Step today world (.save call)
        ⟨(world.saving unicode today call).afterSave unicode records call, directory⟩
  | saveFails (world : World) {call : SaveCall} {records : List LearningRecord} {left : Directory}
      (hrecords : (world.saving unicode today call).state.recordsToSave call = some records)
      (hcut : Cut (saveRecords unicode format (world.saving unicode today call).state records)
        world.directory left) :
      Step today world (.saveFails call) ⟨world.saving unicode today call, left⟩
  | reset (world : World) {listing : List FileName} {directory : Directory}
      (hlisting : IsListing world.directory listing)
      (hrun : runAll (resetSteps listing) world.directory = some directory) :
      Step today world .reset ⟨(world.store.refreshDay unicode today).clear unicode, directory⟩
  | resetFails (world : World) {listing : List FileName} {left : Directory}
      (hlisting : IsListing world.directory listing)
      (hcut : Cut (resetSteps listing) world.directory left) :
      Step today world .resetFails ⟨(world.store.refreshDay unicode today).clear unicode, left⟩
  | reopen (world : World) {mode : LearningMode} {maxCount : Nat} {listing : List FileName}
      {directory : Directory} {state : LearningState}
      (hlisting : IsListing world.directory listing)
      (hopen : openMemory unicode format world.directory listing mode maxCount
        world.store.state.characterIds today = some (directory, state)) :
      Step today world (.reopen mode maxCount) ⟨.ofState unicode state, directory⟩
  | reopenFails (world : World) {listing : List FileName} {left : Directory}
      (hlisting : IsListing world.directory listing)
      (hcut : Cut (recoverIfPaused world.directory listing) world.directory left) :
      Step today world .reopenFails { world with directory := left }

/-- What can be reached from an empty directory, by calls that are allowed where they are made. -/
inductive Reached (characterIds : CharacterIdMap) (allowed : World → UInt16 → Event → Prop) :
    World → Prop
  | opened {mode : LearningMode} {maxCount : Nat} {today : UInt16} {directory : Directory}
      {state : LearningState}
      (hopen : openMemory unicode format (fun _ => none) [] mode maxCount characterIds today =
        some (directory, state)) :
      Reached characterIds allowed ⟨.ofState unicode state, directory⟩
  | step {world next : World} {today : UInt16} {event : Event}
      (hreached : Reached characterIds allowed world) (hallowed : allowed world today event)
      (hstep : Step unicode format today world event next) : Reached characterIds allowed next

def HaveWords (characterIds : CharacterIdMap) (entries : List DictionaryEntry) : Prop :=
  ∀ entry ∈ entries, validLearningEntry unicode entry characterIds = true → entry.word ≠ []

def SaveFits (store : LearningStore) (call : SaveCall) : Prop :=
  ∀ records, store.state.recordsToSave call = some records →
    (store.state.filesToSave unicode format records).Fits

/-- Nothing is learned without a word, saves fit their format, and no call fails on its files
while the marker of an earlier failure is there. -/
def Allowed (world : World) (today : UInt16) : Event → Prop
  | .learn candidate => HaveWords unicode world.store.state.characterIds (learnedEntries candidate)
  | .learnPostPrediction candidate prediction =>
    HaveWords unicode world.store.state.characterIds (postPredictionEntries candidate prediction)
  | .save call => SaveFits unicode format (world.saving unicode today call) call
  | .saveFails call =>
    SaveFits unicode format (world.saving unicode today call) call ∧
      world.directory pauseFile = none
  | .resetFails => world.directory pauseFile = none
  | _ => True

end

/-! ### The entries that are memorized -/

theorem joinEntries_ids {entries : List DictionaryEntry} {joined : DictionaryEntry}
    (h : joinEntries entries = some joined) (hids : ∀ entry ∈ entries, IsWord16 entry) :
    IsWord16 joined := by
  rw [joinEntries] at h
  split at h
  · next first last hfirst hlast =>
    obtain rfl := Option.some.inj h
    have hfirstIds := hids first (List.mem_of_mem_head? hfirst)
    have hlastIds := hids last (List.mem_of_getLast? hlast)
    exact ⟨hfirstIds.leftId, hlastIds.rightId, hlastIds.meaningId⟩
  · exact absurd h (by simp)

theorem learnedClauseEntriesAfter_ids {entries : List DictionaryEntry} (updateStart : Nat)
    (hids : ∀ entry ∈ entries, IsWord16 entry) :
    ∀ entry ∈ learnedClauseEntriesAfter entries updateStart, IsWord16 entry := by
  intro entry hin
  obtain ⟨⟨first, second⟩, -, hjoined⟩ := List.mem_filterMap.mp hin
  exact joinEntries_ids hjoined fun other hother =>
    hids other (List.mem_of_mem_take (List.mem_of_mem_drop hother))

theorem joinWhole_ids {entries : List DictionaryEntry} (hids : ∀ entry ∈ entries, IsWord16 entry) :
    ∀ entry ∈ joinWhole entries, IsWord16 entry := by
  intro entry hin
  rw [joinWhole] at hin
  split at hin
  · exact joinEntries_ids (Option.mem_toList.mp hin) hids
  · exact absurd hin List.not_mem_nil

theorem taughtEntries_ids {kept update : List DictionaryEntry}
    (hids : ∀ entry ∈ kept ++ update, IsWord16 entry) :
    ∀ entry ∈ taughtEntries kept update, IsWord16 entry := by
  intro entry hin
  cases List.mem_append.mp hin with
  | inr hwhole => exact joinWhole_ids hids entry hwhole
  | inl hin =>
    cases List.mem_append.mp hin with
    | inl hsingle =>
      exact hids entry (List.mem_append_right _ (List.mem_of_mem_filter hsingle))
    | inr hclause => exact learnedClauseEntriesAfter_ids _ hids entry hclause

theorem postPredictionEntries_ids {entries : List DictionaryEntry} {kind : PostPredictionKind}
    (hids : ∀ entry ∈ entries ++ kind.entries, IsWord16 entry) :
    ∀ entry ∈ postPredictionEntries entries kind, IsWord16 entry := by
  cases kind with
  | additional added => exact taughtEntries_ids hids
  | replacement targetEntries replacementEntries =>
    refine taughtEntries_ids fun entry hin => hids entry ?_
    cases List.mem_append.mp hin with
    | inl hkept => exact List.mem_append_left _ (List.mem_of_mem_take hkept)
    | inr hupdate => exact List.mem_append_right _ (List.mem_append_right _ hupdate)

/-! ### What every call keeps -/

structure WorldInvariant (unicode : UnicodeTable) (format : FloatFormat)
    (characterIds : CharacterIdMap) (world : World) : Prop where
  characters : world.store.state.characterIds = characterIds
  consistent : Consistent unicode world.store
  durable : Durable unicode format characterIds world.directory

section
variable {unicode : UnicodeTable} {format : FloatFormat} {characterIds : CharacterIdMap}

theorem refreshDay_characterIds (store : LearningStore) (today : UInt16) :
    (store.refreshDay unicode today).state.characterIds = store.state.characterIds := by
  rw [LearningStore.refreshDay]
  split <;> rfl

theorem learn_characterIds (store : LearningStore) (entries : List DictionaryEntry) :
    (store.learn unicode entries).state.characterIds = store.state.characterIds := by
  rw [LearningStore.learn]
  split
  · next hmode =>
    clear hmode
    induction entries generalizing store with
    | nil => rfl
    | cons entry rest ih => rw [List.foldl_cons, ih, LearningStore.memorize_characterIds]
  · rfl

theorem beforeSave_characterIds (store : LearningStore) (call : SaveCall) :
    (store.beforeSave unicode call).state.characterIds = store.state.characterIds := by
  cases call with
  | commit => rfl
  | forget entries =>
    rw [LearningStore.beforeSave, LearningStore.forgetTemporary]
    split <;> rfl

theorem Consistent.beforeSave {store : LearningStore} (h : Consistent unicode store)
    (call : SaveCall) :
    Consistent unicode (store.beforeSave unicode call) := by
  cases call with
  | commit => exact h
  | forget entries => exact h.forgetTemporary entries

theorem Consistent.afterSave {store : LearningStore} (h : Consistent unicode store)
    {records : List LearningRecord}
    (hrecords : IsLayer unicode store.state.characterIds (records.map LearningRecord.entry))
    (call : SaveCall) : Consistent unicode (store.afterSave unicode records call) := by
  cases call with
  | commit => exact (h.publish hrecords).clearTemporary
  | forget entries => exact h.publish hrecords

theorem afterSave_characterIds (store : LearningStore) (records : List LearningRecord)
    (call : SaveCall) :
    (store.afterSave unicode records call).state.characterIds = store.state.characterIds := by
  cases call <;> rfl

theorem openMemory_invariant {directory after : Directory} {listing : List FileName}
    {mode : LearningMode} {maxCount : Nat} {today : UInt16} {state : LearningState}
    (hdurable : Durable unicode format characterIds directory)
    (hlisting : IsListing directory listing)
    (h : openMemory unicode format directory listing mode maxCount characterIds today =
      some (after, state)) :
    WorldInvariant unicode format characterIds ⟨.ofState unicode state, after⟩ := by
  obtain ⟨-, hrecovered, decoded, hdecoded, rfl⟩ | ⟨-, rfl, rfl⟩ := openMemory_cases h
  · have hafter := hdurable.recover hlisting (cut_of_runAll hrecovered)
    have hlayer := hafter.reads (recovered_unpaused hlisting hrecovered) decoded hdecoded
    exact ⟨rfl, .ofState rfl ((hlayer.sublist (List.filter_sublist.map _)).refresh today), hafter⟩
  · exact ⟨rfl, .ofState rfl (isFreshLayer_nil _), hdurable⟩

theorem HaveWords.teaches {entries : List DictionaryEntry}
    (h : HaveWords unicode characterIds entries) (hids : ∀ entry ∈ entries, IsWord16 entry) :
    ∀ entry ∈ entries, Teaches unicode characterIds entry :=
  fun entry hin hvalid => ⟨hvalid, h entry hin hvalid, hids entry hin⟩

theorem WorldInvariant.saves {world : World} (h : WorldInvariant unicode format characterIds world)
    {today : UInt16} {call : SaveCall} {records : List LearningRecord}
    (hrecords : (world.saving unicode today call).state.recordsToSave call = some records)
    (hfits : SaveFits unicode format (world.saving unicode today call) call) :
    IsLayer unicode characterIds (records.map LearningRecord.entry) ∧
      SavesLayer unicode format characterIds
        ((world.saving unicode today call).state.filesToSave unicode format records) := by
  have hsaving : Consistent unicode (world.saving unicode today call) :=
    (h.consistent.refreshDay today).beforeSave call
  have hcharacters : (world.saving unicode today call).state.characterIds = characterIds := by
    rw [World.saving, beforeSave_characterIds, refreshDay_characterIds, h.characters]
  have hlayer := hsaving.recordsToSave hrecords
  have hfiles := hfits records hrecords
  rw [LearningState.filesToSave, hcharacters] at hfiles
  rw [hcharacters] at hlayer
  rw [LearningState.filesToSave, hcharacters]
  exact ⟨hlayer, savesLayer hlayer.saved.layer hfiles⟩

theorem WorldInvariant.step {world next : World} {today : UInt16} {event : Event}
    (h : WorldInvariant unicode format characterIds world)
    (hallowed : Allowed unicode format world today event)
    (hstep : Step unicode format today world event next) :
    WorldInvariant unicode format characterIds next := by
  have hrefreshed := h.consistent.refreshDay today
  have hcharacters : (world.store.refreshDay unicode today).state.characterIds = characterIds := by
    rw [refreshDay_characterIds, h.characters]
  have hsaving : ∀ call, (world.saving unicode today call).state.characterIds = characterIds := by
    intro call
    rw [World.saving, beforeSave_characterIds, hcharacters]
  cases hstep with
  | lookup kind ruby maximumLength => exact ⟨hcharacters, hrefreshed, h.durable⟩
  | learn hids =>
    have hteaches := HaveWords.teaches hallowed (@taughtEntries_ids [] _ hids)
    rw [h.characters, ← hcharacters] at hteaches
    exact ⟨(learn_characterIds _ _).trans hcharacters, hrefreshed.learn hteaches, h.durable⟩
  | learnPostPrediction hids =>
    have hteaches := HaveWords.teaches hallowed (postPredictionEntries_ids hids)
    rw [h.characters, ← hcharacters] at hteaches
    exact ⟨(learn_characterIds _ _).trans hcharacters, hrefreshed.learn hteaches, h.durable⟩
  | saveNothing hnone => exact ⟨hsaving _, hrefreshed.beforeSave _, h.durable⟩
  | save hrecords hrun =>
    obtain ⟨hlayer, hsaves⟩ := h.saves hrecords hallowed
    rw [← hsaving] at hlayer
    exact ⟨(afterSave_characterIds _ _ _).trans (hsaving _),
      (hrefreshed.beforeSave _).afterSave hlayer _,
      h.durable.attempt (cut_of_runAll hrun) (keepsTemporaries_of_run hrun) hsaves⟩
  | saveFails hrecords hcut =>
    obtain ⟨-, hsaves⟩ := h.saves hrecords hallowed.1
    exact ⟨hsaving _, hrefreshed.beforeSave _, h.durable.attempt hcut (.inl hallowed.2) hsaves⟩
  | reset hlisting hrun => exact ⟨hcharacters, .clear _, durable_reset hlisting hrun⟩
  | resetFails _ hcut => exact ⟨hcharacters, .clear _, h.durable.reset hallowed hcut⟩
  | reopen hlisting hopen =>
    rw [h.characters] at hopen
    exact openMemory_invariant h.durable hlisting hopen
  | reopenFails hlisting hcut => exact ⟨h.characters, h.consistent, h.durable.recover hlisting hcut⟩

theorem Reached.invariant {world : World}
    (h : Reached unicode format characterIds (Allowed unicode format) world) :
    WorldInvariant unicode format characterIds world := by
  induction h with
  | opened hopen =>
    exact openMemory_invariant (.of_reads rfl (readsLayer_of_none rfl)) isListing_empty hopen
  | step _ hallowed hstep ih => exact ih.step hallowed hstep

/-- In every history whose calls are allowed, both layers are sound after the refresh of any
day, and no lookup meets a stale position. -/
theorem learning_sound {world : World}
    (h : Reached unicode format characterIds (Allowed unicode format) world) (today : UInt16) :
    SoundStore unicode (world.store.refreshDay unicode today) :=
  (h.invariant.consistent.refreshDay today).sound

end

/-! ### A word that is empty -/

theorem memorize_new {unicode : UnicodeTable} {store : LearningStore} {entry : DictionaryEntry}
    {ids : List UInt8}
    (hvalid : validLearningEntry unicode entry store.state.characterIds = true)
    (hids : store.state.characterIds.encode unicode entry.ruby = some ids)
    (hnew : store.findTemporary ids entry = none) :
    (store.memorize unicode entry).state = { store.state with
      temporary := store.state.temporary ++
        [⟨entry, store.state.today, store.state.today, 1⟩] } := by
  rw [LearningStore.memorize, if_pos hvalid, hids]
  simp only [hnew]

theorem refreshDay_self {unicode : UnicodeTable} {store : LearningStore} {today : UInt16}
    (h : store.state.today = today) : store.refreshDay unicode today = store := by
  rw [LearningStore.refreshDay, if_pos h]

def kanaEntry (word : Text) : DictionaryEntry := { learnedRecord.entry with word }

def kanaRecord (word : Text) : LearningRecord := ⟨kanaEntry word, 0, 0, 1⟩

theorem learnedEntries_kanaEntry (word : Text) :
    learnedEntries [kanaEntry word] = [kanaEntry word] := by
  rfl

theorem opened_kana : openMemory .kana sampleFormat (fun _ => none) [] .inputAndOutput 65536
    (learnedState []).characterIds 0 = some (fun _ => none, learnedState []) := by
  have hopen : openDirectory sampleFormat (fun _ => none) [] = some (fun _ => none, []) := by
    rw [openDirectory, runAll_recover_of_none rfl]
    simp [decodeDirectory_of_none, Except.toOption]
  rw [openMemory, if_pos (by decide), hopen]
  rfl

theorem opened_consistent : Consistent .kana (.ofState .kana (learnedState [])) :=
  .ofState rfl (isFreshLayer_nil _)

theorem learn_kana {store : LearningStore} (h : Consistent .kana store)
    {records : List LearningRecord}
    (hstate : store.state = learnedState records) {word : Text}
    (hvalid : word.any isControl = false)
    (hnew : ∀ record ∈ records, record.entry.word ≠ word) :
    ((store.refreshDay .kana 0).learn .kana (learnedEntries [kanaEntry word])).state =
      learnedState (records ++ [kanaRecord word]) := by
  have hids : (learnedState []).characterIds.encode .kana ['ア'] = some [0] := by decide +kernel
  have hcharacters : store.state.characterIds = (learnedState []).characterIds := by
    rw [hstate]; rfl
  have hencode : store.state.characterIds.encode .kana (kanaEntry word).ruby = some [0] := by
    rw [hcharacters]
    exact hids
  have hentry : validLearningEntry .kana (kanaEntry word) store.state.characterIds = true := by
    rw [validLearningEntry, hencode]
    have hword : (kanaEntry word).word.any isControl = false := hvalid
    rw [hword]
    rfl
  have hfind := findTemporary_spec h.temporaryIndex hencode
  have hnone : store.findTemporary [0] (kanaEntry word) = none := by
    cases hfound : store.findTemporary [0] (kanaEntry word) with
    | none => rfl
    | some index =>
      rw [hfound] at hfind
      obtain ⟨record, hrecord, hsame⟩ := hfind
      rw [hstate] at hrecord
      exact absurd (sameEntry_iff.mp hsame).2.1 (hnew record (List.mem_of_getElem? hrecord))
  rw [refreshDay_self (by rw [hstate]; rfl), learnedEntries_kanaEntry, LearningStore.learn,
    if_pos (by rw [hstate]; rfl), List.foldl_cons, List.foldl_nil,
      memorize_new hentry hencode hnone,
    hstate]
  rfl

theorem isWord16_kana (word : Text) : ∀ entry ∈ [kanaEntry word], IsWord16 entry := by
  intro entry hin
  rw [List.mem_singleton.mp hin]
  exact ⟨(by decide : 1288 < 65536), (by decide : 1288 < 65536), (by decide : 501 < 65536)⟩

theorem teaches_kana : Teaches .kana (learnedState []).characterIds (kanaEntry ['ア']) :=
  fun hvalid => ⟨hvalid, by decide, by decide, by decide, by decide⟩

def reading : LearningRecord := kanaRecord ['ア']

def wordless : LearningRecord := kanaRecord []

def kanaStore : LearningStore :=
  ((LearningStore.ofState .kana (learnedState [])).refreshDay .kana 0).learn .kana
    (learnedEntries [kanaEntry ['ア']])

theorem learnedState_kana : kanaStore.state = learnedState [reading] :=
  learn_kana opened_consistent rfl (by decide) (by simp)

theorem consistent_kana : Consistent .kana kanaStore := by
  refine (opened_consistent.refreshDay 0).learn ?_
  intro entry hin
  rw [learnedEntries_kanaEntry, List.mem_singleton] at hin
  rw [hin, refreshDay_characterIds]
  exact teaches_kana

theorem reached_kana : Reached .kana sampleFormat (learnedState []).characterIds
    (Allowed .kana sampleFormat) ⟨kanaStore, fun _ => none⟩ := by
  have hopened : Reached .kana sampleFormat (learnedState []).characterIds
      (Allowed .kana sampleFormat) _ := .opened opened_kana
  have hwords : HaveWords .kana (learnedState []).characterIds
      (learnedEntries [kanaEntry ['ア']]) := by
    intro entry hin hvalid
    rw [learnedEntries_kanaEntry, List.mem_singleton] at hin
    rw [hin]
    decide
  have hstep : Step .kana sampleFormat 0 ⟨.ofState .kana (learnedState []), fun _ => none⟩
      (.learn [kanaEntry ['ア']]) ⟨kanaStore, fun _ => none⟩ := .learn _ (isWord16_kana ['ア'])
  exact hopened.step (by exact hwords) hstep

/-- A history that learns the reading. -/
theorem learning_sound_kana : Reached .kana sampleFormat (learnedState []).characterIds
      (Allowed .kana sampleFormat) ⟨kanaStore, fun _ => none⟩ ∧
    ∀ today, SoundStore .kana (kanaStore.refreshDay .kana today) :=
  ⟨reached_kana, learning_sound reached_kana⟩

theorem decayRecord_new (entry : DictionaryEntry) (today : UInt16) :
    decayRecord today ⟨entry, today, today, 1⟩ = some ⟨entry, today, today, 1⟩ := by
  rw [decayRecord]
  simp [halve]

theorem savedRecords_wordless :
    (learnedState [reading, wordless]).savedRecords [reading, wordless] = [reading, wordless] := by
  have hdecayed : decay [reading, wordless] 0 = [reading, wordless] := by
    simp only [decay, reading, wordless, kanaRecord, List.filterMap_cons, decayRecord_new,
      List.filterMap_nil]
  have hsorted : [reading, wordless].mergeSort (fun first second =>
      decide (second.lastUsedDay ≤ first.lastUsedDay)) = [reading, wordless] :=
    List.mergeSort_of_pairwise (by decide)
  rw [LearningState.savedRecords]
  change (((decay [reading, wordless] 0).mergeSort _).take 65536) = _
  rw [hdecayed, hsorted]
  rfl

theorem decodeDirectory_wordless {directory : Directory}
    (h : Holds directory (encodeFiles .kana sampleFormat [reading, wordless]
      (learnedState []).characterIds)) :
    decodeDirectory sampleFormat directory =
      .ok ([reading, wordless].map (storedRecord .kana sampleFormat)) := by
  have hfits : (encodeFiles .kana sampleFormat [reading, wordless]
      (learnedState []).characterIds).Fits := ⟨by decide +kernel, by decide +kernel⟩
  have hblocks : recordBlocks .kana [reading, wordless] (learnedState []).characterIds =
      [[], [], [reading, wordless]] := by decide +kernel
  rw [decodeDirectory_stored h hfits.fields (by
    intro record hin
    simp only [List.mem_cons, List.not_mem_nil, or_false] at hin
    obtain rfl | rfl := hin
    · exact ⟨by decide, by decide, by decide, by decide, by decide⟩
    · exact ⟨by decide, by decide, by decide, by decide, by decide⟩), hblocks]
  rfl

theorem reached_wordless : ∃ store : LearningStore, store.state = learnedState [reading, wordless] ∧
    Reached .kana sampleFormat (learnedState []).characterIds (fun _ _ _ => True)
      ⟨store, fun _ => none⟩ := by
  have hopened : Reached .kana sampleFormat (learnedState []).characterIds (fun _ _ _ => True) _ :=
    .opened opened_kana
  have hfirst : Step .kana sampleFormat 0 ⟨.ofState .kana (learnedState []), fun _ => none⟩
      (.learn [kanaEntry ['ア']]) ⟨kanaStore, fun _ => none⟩ := .learn _ (isWord16_kana ['ア'])
  have hsecond : Step .kana sampleFormat 0 ⟨kanaStore, fun _ => none⟩ (.learn [kanaEntry []]) _ :=
    .learn _ (isWord16_kana [])
  exact ⟨_, learn_kana consistent_kana learnedState_kana (by decide)
    (by simp [kanaRecord, kanaEntry, reading]), (hopened.step trivial hfirst).step trivial hsecond⟩

theorem opened_wordless {directory : Directory} (h : Published (encodeFiles .kana sampleFormat
    [reading, wordless] (learnedState []).characterIds) directory) (listing : List FileName) :
    openMemory .kana sampleFormat directory listing .inputAndOutput 65536
      (learnedState []).characterIds 0 = some (directory, { learnedState [] with
        persisted := [reading, wordless].map (storedRecord .kana sampleFormat) }) := by
  have hopen : openDirectory sampleFormat directory listing =
      some (directory, [reading, wordless].map (storedRecord .kana sampleFormat)) := by
    rw [openDirectory, runAll_recover_of_none h.unpaused]
    simp [decodeDirectory_wordless h.holds, Except.toOption]
  have hvalid : ([reading, wordless].map (storedRecord .kana sampleFormat)).filter (fun record =>
      validLearningEntry .kana record.entry (learnedState []).characterIds) =
        [reading, wordless].map (storedRecord .kana sampleFormat) := by
    refine List.filter_eq_self.mpr ?_
    intro record hin
    simp only [List.map_cons, List.map_nil, List.mem_cons, List.not_mem_nil, or_false] at hin
    obtain rfl | rfl := hin
    · decide +kernel
    · decide +kernel
  have hdecayed : decay ([reading, wordless].map (storedRecord .kana sampleFormat)) 0 =
      [reading, wordless].map (storedRecord .kana sampleFormat) := by
    simp only [decay, reading, wordless, kanaRecord, storedRecord, List.map_cons, List.map_nil,
      List.filterMap_cons, decayRecord_new, List.filterMap_nil]
  rw [openMemory, if_pos (by decide), hopen, Option.map_some]
  simp only [hvalid, hdecayed]
  rfl

theorem committed_wordless : ∃ store directory listing,
    store.state = learnedState [reading, wordless] ∧
      Reached .kana sampleFormat (learnedState []).characterIds (fun _ _ _ => True)
        ⟨store, fun _ => none⟩ ∧
      Step .kana sampleFormat 0 ⟨store, fun _ => none⟩ (.save .commit)
        ⟨store.afterSave .kana [reading, wordless] .commit, directory⟩ ∧
      Published (encodeFiles .kana sampleFormat [reading, wordless] (learnedState []).characterIds)
        directory ∧ IsListing directory listing := by
  obtain ⟨store, hstate, hreached⟩ := reached_wordless
  have hsaving : World.saving .kana ⟨store, fun _ => none⟩ 0 .commit = store :=
    refreshDay_self (by rw [hstate]; rfl)
  have hrecords : store.state.recordsToSave .commit = some [reading, wordless] := by
    rw [hstate]
    decide +kernel
  have hfiles : store.state.filesToSave .kana sampleFormat [reading, wordless] =
      encodeFiles .kana sampleFormat [reading, wordless] (learnedState []).characterIds := by
    rw [LearningState.filesToSave, hstate, savedRecords_wordless]
    rfl
  obtain ⟨directory, hrun, hpublished⟩ := runAll_saveSteps (encodeFiles .kana sampleFormat
    [reading, wordless] (learnedState []).characterIds) fun _ => none
  obtain ⟨listing, hlisting⟩ := exists_listing_of_cut (cut_of_runAll hrun) ⟨[], isListing_empty⟩
  rw [← hfiles] at hrun
  have hstep : Step .kana sampleFormat 0 ⟨store, fun _ => none⟩ (.save .commit) _ :=
    .save _ (hsaving.symm ▸ hrecords) (hsaving.symm ▸ hrun)
  rw [hsaving] at hstep
  exact ⟨store, directory, listing, hstate, hreached, hstep, hpublished, hlisting⟩

/-- After a commit and an open anew the persisted layer has the same entry twice. -/
theorem wordless_entry_doubled : ∃ world,
    Reached .kana sampleFormat (learnedState []).characterIds (fun _ _ _ => True) world ∧
      ¬∀ today, SoundStore .kana (world.store.refreshDay .kana today) := by
  obtain ⟨store, directory, listing, hstate, hreached, hstep, hpublished, hlisting⟩ :=
    committed_wordless
  have hcharacters : (store.afterSave .kana [reading, wordless] .commit).state.characterIds =
      (learnedState []).characterIds := by
    rw [afterSave_characterIds, hstate]
    rfl
  have hopen := opened_wordless hpublished listing
  rw [← hcharacters] at hopen
  refine ⟨_, (hreached.step trivial hstep).step trivial
    (.reopen _ hlisting hopen : Step .kana sampleFormat 0 _ _ _), fun hsound => ?_⟩
  have hdistinct := (hsound 0).persisted.distinct
  rw [refreshDay_self (by rfl)] at hdistinct
  change [storedRecord .kana sampleFormat reading,
    storedRecord .kana sampleFormat wordless].Pairwise _
    at hdistinct
  have hdiffer := (List.pairwise_cons.mp hdistinct).1 _ (List.mem_singleton.mpr rfl)
  exact absurd hdiffer (by decide +kernel)

end BeanKey.Learning
