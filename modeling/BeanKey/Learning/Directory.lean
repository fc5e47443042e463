import BeanKey.Learning.Reading
import Mathlib.Data.Char
import Mathlib.Data.List.Infix
import Mathlib.Data.List.Lex

/-! The steps of a save, of the recovery at the next open and of a reset. -/
namespace BeanKey.Learning
open BeanKey.Lattice Packing Crash
open BeanKey.Dictionary (CharacterIdMap FloatFormat)

abbrev FileStep := Step FileName Bytes

/-- `read_dir` hands out every name once, in some order. -/
def IsListing (directory : Directory) (listing : List FileName) : Prop :=
  listing.Nodup ∧ ∀ name, name ∈ listing ↔ (directory name).isSome

def writeTemporary (name : FileName) (bytes : Bytes) : FileStep := .write (temporaryFile name) bytes

def restoreTemporary (name : FileName) : FileStep := .copy (temporaryFile name) name

/-! ### Saving -/

def writeSteps (files : EncodedMemory) : List FileStep :=
  writeTemporary loudsFile files.louds :: writeTemporary loudsCharsFile files.characters ::
    writeTemporary metadataFile files.metadata ::
    files.shards.mapIdx fun index shard => writeTemporary (shardFile index) shard

/-- The topology is published last. -/
def publishSteps (files : EncodedMemory) : List FileStep :=
  [.write pauseFile [], restoreTemporary loudsCharsFile, restoreTemporary metadataFile] ++
    (List.range files.shards.length).map (fun index => restoreTemporary (shardFile index)) ++
    [restoreTemporary loudsFile, .remove pauseFile]

def saveSteps (files : EncodedMemory) : List FileStep := writeSteps files ++ publishSteps files

def LearningState.filesToSave (unicode : UnicodeTable) (format : FloatFormat)
    (state : LearningState) (records : List LearningRecord) : EncodedMemory :=
  encodeFiles unicode format (state.savedRecords records) state.characterIds

def saveRecords (unicode : UnicodeTable) (format : FloatFormat) (state : LearningState)
    (records : List LearningRecord) : List FileStep :=
  saveSteps (state.filesToSave unicode format records)

/-! ### Opening -/

def isTemporaryShard (name : FileName) : Bool :=
  "memory".toList.isPrefixOf name && ".loudstxt3.2".toList.isSuffixOf name

def trimReversed : FileName → FileName
  | '2' :: '.' :: rest => trimReversed rest
  | name => name

def trimTemporary (name : FileName) : FileName := (trimReversed name.reverse).reverse

def recoverSteps (listing : List FileName) : List FileStep :=
  [restoreTemporary loudsCharsFile, restoreTemporary metadataFile] ++
    ((listing.filter isTemporaryShard).mergeSort fun first second => decide (first ≤ second)).map
      (fun name => restoreTemporary (trimTemporary name)) ++
    [restoreTemporary loudsFile, .remove pauseFile]

/-- The listing is read after two copies; those change no name it looks for. -/
def recoverIfPaused (directory : Directory) (listing : List FileName) : List FileStep :=
  if (directory pauseFile).isSome then recoverSteps listing else []

/-- The directory and the records a store starts from, or `none` after an error. -/
def openDirectory (format : FloatFormat) (directory : Directory) (listing : List FileName) :
    Option (Directory × List LearningRecord) := do
  let recovered ← runAll (recoverIfPaused directory listing) directory
  let records ← (decodeDirectory format recovered).toOption
  return (recovered, records)

def openMemory (unicode : UnicodeTable) (format : FloatFormat) (directory : Directory)
    (listing : List FileName) (mode : LearningMode) (maxCount : Nat)
    (characterIds : CharacterIdMap) (today : UInt16) : Option (Directory × LearningState) :=
  if mode.usesMemory then
    (openDirectory format directory listing).map fun (recovered, records) =>
      (recovered,
        { characterIds, mode, maxCount, today
          persisted := decay (records.filter fun record =>
            validLearningEntry unicode record.entry characterIds) today
          temporary := [] })
  else some (directory, { characterIds, mode, maxCount, today, persisted := [], temporary := [] })

/-- What an open does: it repairs the directory and decays the records that it decodes there, or
touches nothing in a mode without memory. -/
theorem openMemory_cases {unicode : UnicodeTable} {format : FloatFormat}
    {directory after : Directory}
    {listing : List FileName} {mode : LearningMode} {maxCount : Nat} {characterIds : CharacterIdMap}
    {today : UInt16} {state : LearningState}
    (h : openMemory unicode format directory listing mode maxCount characterIds today =
      some (after, state)) :
    (mode.usesMemory = true ∧ runAll (recoverIfPaused directory listing) directory = some after ∧
        ∃ records, decodeDirectory format after = .ok records ∧
          state = {
            characterIds, mode, maxCount, today
            persisted := decay (records.filter fun record =>
              validLearningEntry unicode record.entry characterIds) today
            temporary := [] }) ∨
      mode.usesMemory = false ∧ after = directory ∧
        state = { characterIds, mode, maxCount, today, persisted := [], temporary := [] } := by
  rw [openMemory] at h
  split at h
  · next hmode =>
    obtain ⟨⟨recovered, records⟩, hopen, hstate⟩ := Option.map_eq_some_iff.mp h
    obtain ⟨rfl, rfl⟩ := Prod.mk.inj hstate
    obtain ⟨found, hrecovered, hrest⟩ := Option.bind_eq_some_iff.mp hopen
    obtain ⟨decoded, hdecoded, hpair⟩ := Option.bind_eq_some_iff.mp hrest
    obtain ⟨rfl, rfl⟩ := Prod.mk.inj (Option.some.inj hpair)
    refine .inl ⟨hmode, hrecovered, decoded, ?_, rfl⟩
    cases hresult : decodeDirectory format found with
    | error error => simp [hresult, Except.toOption] at hdecoded
    | ok records =>
      rw [hresult] at hdecoded
      exact congrArg Except.ok (Option.some.inj hdecoded)
  · next hmode =>
    obtain ⟨rfl, rfl⟩ := Prod.mk.inj (Option.some.inj h)
    exact .inr ⟨Bool.eq_false_iff.mpr hmode, rfl, rfl⟩

/-- Opening the store again, as far as it writes. -/
def Recovery (directory : Directory) (steps : List FileStep) : Prop :=
  ∃ listing, IsListing directory listing ∧ steps = recoverIfPaused directory listing

/-! ### Resetting -/

def memorySuffixes : List FileName :=
  [".loudstxt3", ".loudstxt3.2", ".loudschars2", ".loudschars2.2", ".memorymetadata",
    ".memorymetadata.2", ".louds", ".louds.2", "learningMemory.txt"].map String.toList

def isMemoryFile (name : FileName) : Bool :=
  name = pauseFile || name = "memory.bin".toList || name = "memory.bin.2".toList ||
    memorySuffixes.any fun suffix => suffix.isSuffixOf name

def resetNames (listing : List FileName) : List FileName := listing.filter isMemoryFile

def resetSteps (listing : List FileName) : List FileStep := (resetNames listing).map .remove

/-! ### Listings along a run -/

theorem isListing_empty : IsListing (fun _ => none) [] :=
  ⟨List.nodup_nil, fun _ => by simp⟩

theorem exists_listing_update {directory : Directory} (h : ∃ listing, IsListing directory listing)
    (name : FileName) (content : Option Bytes) :
    ∃ listing, IsListing (Function.update directory name content) listing := by
  obtain ⟨listing, hnodup, hmem⟩ := h
  cases content with
  | none =>
    refine ⟨listing.filter (· ≠ name), hnodup.filter _, ?_⟩
    intro other
    by_cases heq : other = name
    · simp [heq]
    · simp [heq, hmem other]
  | some bytes =>
    refine ⟨name :: listing.filter (· ≠ name), List.nodup_cons.mpr ⟨by simp, hnodup.filter _⟩, ?_⟩
    intro other
    by_cases heq : other = name
    · simp [heq]
    · simp [heq, hmem other]

theorem exists_listing_of_cut {steps : List FileStep} {directory left : Directory}
    (h : Cut steps directory left) (hlisting : ∃ listing, IsListing directory listing) :
    ∃ listing, IsListing left listing := by
  induction h with
  | stop => exact hlisting
  | torn _ htorn =>
    cases htorn with
    | untouched => exact hlisting
    | written => exact exists_listing_update hlisting _ _
    | copied => exact exists_listing_update hlisting _ _
  | @next step _ _ _ _ hstep _ ih =>
    refine ih ?_
    cases step with
    | write name content =>
      obtain rfl := Option.some.inj hstep
      exact exists_listing_update hlisting _ _
    | copy source destination =>
      obtain ⟨content, -, rfl⟩ := Option.map_eq_some_iff.mp hstep
      exact exists_listing_update hlisting _ _
    | remove name =>
      obtain rfl := Option.some.inj hstep
      exact exists_listing_update hlisting _ _

/-! ### Names -/

inductive IsMemory : FileName → Prop
  | louds : IsMemory loudsFile
  | characters : IsMemory loudsCharsFile
  | metadata : IsMemory metadataFile
  | shard (index : Nat) : IsMemory (shardFile index)

theorem temporaryFile_injective {first second : FileName}
    (h : temporaryFile first = temporaryFile second) : first = second :=
  List.append_cancel_right h

theorem shardFile_injective {first second : Nat} (h : shardFile first = shardFile second) :
    first = second := by
  have hdigits := List.append_cancel_left (List.append_cancel_right h)
  rw [← Nat.ofDigitChars_ten_toDigits (n := first), hdigits, Nat.ofDigitChars_ten_toDigits]

theorem ne_of_suffixes {first second short long : FileName} (hfirst : short <:+ first)
    (hsecond : long <:+ second) (hlength : short.length ≤ long.length) (h : ¬short <:+ long) :
    first ≠ second := by
  intro heq
  exact h (List.suffix_of_suffix_length_le (heq ▸ hfirst) hsecond hlength)

theorem temporaryFile_suffix (name : FileName) : ".2".toList <:+ temporaryFile name :=
  List.suffix_append _ _

theorem shardFile_suffix (index : Nat) : ".loudstxt3".toList <:+ shardFile index :=
  List.suffix_append _ _

theorem temporaryFile_ne_pauseFile (name : FileName) : temporaryFile name ≠ pauseFile :=
  fun heq => absurd (heq ▸ temporaryFile_suffix name : ".2".toList <:+ pauseFile) (by decide)

theorem ne_temporaryFile_of_shard {name : FileName} (h : ".loudstxt3".toList <:+ name)
    (other : FileName) : temporaryFile other ≠ name :=
  ne_of_suffixes (temporaryFile_suffix other) h (by decide) (by decide)

theorem temporaryFile_ne {name : FileName} (h : ¬".2".toList <:+ name) (other : FileName) :
    temporaryFile other ≠ name :=
  fun heq => h (heq ▸ temporaryFile_suffix other)

theorem IsMemory.ne_temporaryFile {name : FileName} (h : IsMemory name) (other : FileName) :
    temporaryFile other ≠ name := by
  cases h with
  | louds => exact temporaryFile_ne (by decide) other
  | characters => exact temporaryFile_ne (by decide) other
  | metadata => exact temporaryFile_ne (by decide) other
  | shard index => exact ne_temporaryFile_of_shard (shardFile_suffix index) other

theorem ne_pauseFile_of_shard {name : FileName} (h : ".loudstxt3".toList <:+ name) :
    name ≠ pauseFile :=
  fun heq => ne_of_suffixes (List.suffix_refl pauseFile) h (by decide) (by decide) heq.symm

theorem IsMemory.ne_pauseFile {name : FileName} (h : IsMemory name) : name ≠ pauseFile := by
  cases h with
  | louds => decide
  | characters => decide
  | metadata => decide
  | shard index => exact ne_pauseFile_of_shard (shardFile_suffix index)

theorem isTemporaryShard_iff {name : FileName} : isTemporaryShard name ↔
    "memory".toList <+: name ∧ ".loudstxt3.2".toList <:+ name := by
  simp [isTemporaryShard]

theorem trimTemporary_append (base : FileName) :
    trimTemporary (base ++ ['3', '.', '2']) = base ++ ['3'] := by
  simp [trimTemporary, trimReversed]

theorem temporaryFile_trimTemporary {name : FileName} (h : isTemporaryShard name) :
    temporaryFile (trimTemporary name) = name ∧ ".loudstxt3".toList <:+ trimTemporary name := by
  obtain ⟨stem, hstem⟩ := (isTemporaryShard_iff.mp h).2
  have hname : name = (stem ++ ".loudstxt".toList) ++ ['3', '.', '2'] :=
    hstem.symm.trans (List.append_assoc stem ".loudstxt".toList ['3', '.', '2']).symm
  have hending : (stem ++ ".loudstxt".toList) ++ ['3'] = stem ++ ".loudstxt3".toList :=
    List.append_assoc stem ".loudstxt".toList ['3']
  subst hname
  constructor
  · rw [trimTemporary_append]
    exact List.append_assoc _ ['3'] ".2".toList
  · rw [trimTemporary_append, hending]
    exact List.suffix_append _ _

theorem isTemporaryShard_shardFile (index : Nat) :
    isTemporaryShard (temporaryFile (shardFile index)) := by
  refine isTemporaryShard_iff.mpr ⟨?_, ?_⟩
  · exact ((List.prefix_append _ _).trans (List.prefix_append _ _)).trans (List.prefix_append _ _)
  · exact ⟨_, (List.append_assoc _ ".loudstxt3".toList ".2".toList).symm⟩

theorem trimTemporary_shardFile (index : Nat) :
    trimTemporary (temporaryFile (shardFile index)) = shardFile index :=
  temporaryFile_injective (temporaryFile_trimTemporary (isTemporaryShard_shardFile index)).1

end BeanKey.Learning
