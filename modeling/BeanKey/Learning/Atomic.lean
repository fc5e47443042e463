import BeanKey.Learning.Recovery

/-! A save that is cut off anywhere, and recovered with further cuts, leaves the old memory
or the new one. Saves that follow a failed one mix the two. -/
namespace BeanKey.Learning
open BeanKey.Lattice Packing Crash
open BeanKey.Dictionary (CharacterIdMap FloatFormat)

variable {unicode : UnicodeTable} {format : FloatFormat} {files : EncodedMemory}
  {before directory left : Directory}

/-! ### Publishing after the save -/

def publishedNames (files : EncodedMemory) : List FileName :=
  [loudsCharsFile, metadataFile] ++ (List.range files.shards.length).map shardFile ++ [loudsFile]

theorem publishSteps_eq (files : EncodedMemory) : publishSteps files =
    .write pauseFile [] ::
      ((publishedNames files).map restoreTemporary ++ [.remove pauseFile]) := by
  simp [publishSteps, publishedNames, Function.comp_def]

theorem isLive_of_mem_publishedNames {name : FileName} (h : name ∈ publishedNames files) :
    IsLive name := by
  simp only [publishedNames, List.mem_append, List.mem_cons, List.not_mem_nil, or_false,
    List.mem_map] at h
  obtain ((rfl | rfl) | ⟨index, -, rfl⟩) | rfl := h
  · exact IsMemory.characters.isLive
  · exact IsMemory.metadata.isLive
  · exact (IsMemory.shard index).isLive
  · exact IsMemory.louds.isLive

theorem mem_publishedNames_iff {name : FileName} : name ∈ publishedNames files ↔
    ∃ pair ∈ memoryFiles files, pair.1 = name := by
  simp only [publishedNames, List.mem_append, List.mem_cons, List.not_mem_nil, or_false,
    List.mem_map, List.mem_range]
  constructor
  · rintro (((rfl | rfl) | ⟨index, hindex, rfl⟩) | rfl)
    · exact ⟨_, mem_memoryFiles.mpr (.inr (.inl rfl)), rfl⟩
    · exact ⟨_, mem_memoryFiles.mpr (.inr (.inr (.inl rfl))), rfl⟩
    · exact ⟨(shardFile index, files.shards[index]), mem_memoryFiles.mpr
        (.inr (.inr (.inr ⟨index, _, List.getElem?_eq_getElem hindex, rfl⟩))), rfl⟩
    · exact ⟨_, mem_memoryFiles.mpr (.inl rfl), rfl⟩
  · rintro ⟨pair, hpair, rfl⟩
    obtain rfl | rfl | rfl | ⟨index, shard, hshard, rfl⟩ := mem_memoryFiles.mp hpair
    · exact .inr rfl
    · exact .inl (.inl (.inl rfl))
    · exact .inl (.inl (.inr rfl))
    · exact .inl (.inr ⟨index, (List.getElem?_eq_some_iff.mp hshard).1, rfl⟩)

theorem TemporariesHold.pause (h : TemporariesHold directory files) (content : Bytes) :
    Prepared files (Function.update directory pauseFile (some content)) where
  paused := by rw [Function.update_self]; rfl
  temporaries pair hpair := by
    rw [Function.update_of_ne (temporaryFile_ne_pauseFile _)]
    exact h pair hpair

theorem publish_after_pause (files : EncodedMemory) :
    Runs (Prepared files) ((publishedNames files).map restoreTemporary ++ [.remove pauseFile])
      (Published files)
      (fun directory => Prepared files directory ∨ Published files directory) := by
  have hcover : ∀ pair ∈ memoryFiles files, pair.1 ∈ publishedNames files := fun pair hpair =>
    mem_publishedNames_iff.mpr ⟨pair, hpair, rfl⟩
  have hruns := publish_runs (fun _ => isLive_of_mem_publishedNames) hcover
  have hsources : ∀ directory, Prepared files directory →
      ∀ name ∈ publishedNames files, (directory (temporaryFile name)).isSome := by
    intro directory hprepared name hname
    obtain ⟨pair, hpair, rfl⟩ := mem_publishedNames_iff.mp hname
    rw [hprepared.temporaries pair hpair]
    rfl
  exact ⟨fun directory h => hruns.done directory ⟨h, hsources directory h⟩,
    fun directory left h => hruns.cut directory left ⟨h, hsources directory h⟩⟩

theorem runAll_saveSteps (files : EncodedMemory) (directory : Directory) :
    ∃ after, runAll (saveSteps files) directory = some after ∧ Published files after := by
  obtain ⟨written, hwritten, hheld⟩ := runAll_writeSteps files directory
  obtain ⟨after, hafter, hpublished⟩ := (publish_after_pause files).done _ (hheld.pause [])
  refine ⟨after, ?_, hpublished⟩
  rw [saveSteps, runAll_append, hwritten, Option.bind_some, publishSteps_eq, runAll_cons]
  exact hafter

/-- Once the temporary files are written, nothing has changed yet, or the save is prepared or
published. -/
theorem cut_publishSteps (h : TemporariesHold directory files)
    (hcut : Cut (publishSteps files) directory left) :
    left = directory ∨ Prepared files left ∨ Published files left := by
  rw [publishSteps_eq] at hcut
  cases hcut with
  | stop => exact .inl rfl
  | torn _ htorn =>
    cases htorn with
    | untouched => exact .inl rfl
    | written _ _ content => exact .inr (.inl (h.pause content))
  | next hstep hrest =>
    obtain rfl := Option.some.inj hstep
    exact .inr ((publish_after_pause files).cut _ left (h.pause []) hrest)

/-! ### What is there after a save that may have been cut -/

/-- The old memory is untouched, or the save is prepared, or it is published. -/
inductive SaveState (before : Directory) (files : EncodedMemory) (directory : Directory) : Prop
  | untouched (h : SameMemory before directory)
  | prepared (h : Prepared files directory)
  | published (h : Published files directory)

theorem saveState_of_cut (h : Cut (saveSteps files) before left) : SaveState before files left := by
  cases cut_append h with
  | inl hwrite => exact .untouched (sameMemory_of_cut_write hwrite)
  | inr hpublish =>
    obtain ⟨written, hwritten, hcut⟩ := hpublish
    obtain ⟨other, hother, hheld⟩ := runAll_writeSteps files before
    obtain rfl := Option.some.inj (hwritten.symm.trans hother)
    obtain rfl | hprepared | hpublished := cut_publishSteps hheld hcut
    · exact .untouched (sameMemory_of_cut_write (cut_of_runAll hwritten))
    · exact .prepared hprepared
    · exact .published hpublished

/-- A recovery that is cut keeps the state. -/
theorem SaveState.recovery (hbefore : before pauseFile = none)
    (h : SaveState before files directory) {steps : List FileStep}
    (hsteps : Recovery directory steps) (hcut : Cut steps directory left) :
    SaveState before files left := by
  obtain ⟨listing, hlisting, rfl⟩ := hsteps
  have hunpaused : directory pauseFile = none → left = directory := by
    intro hnone
    rw [recoverIfPaused_of_none hnone] at hcut
    cases hcut
    rfl
  cases h with
  | untouched hsame =>
    rw [hunpaused (hsame.pause.trans hbefore)]
    exact .untouched hsame
  | prepared hprepared =>
    cases (recover_runs hprepared hlisting).cut _ left rfl hcut with
    | inl hleft => exact .prepared hleft
    | inr hleft => exact .published hleft
  | published hpublished =>
    rw [hunpaused hpublished.unpaused]
    exact .published hpublished

theorem SaveState.recovered (hbefore : before pauseFile = none)
    (h : SaveState before files directory) {listing : List FileName}
    (hlisting : IsListing directory listing) :
    ∃ after, runAll (recoverIfPaused directory listing) directory = some after ∧
      after pauseFile = none ∧ (SameMemory before after ∨ Holds after files) := by
  cases h with
  | untouched hsame =>
    have hnone := hsame.pause.trans hbefore
    exact ⟨directory, runAll_recover_of_none hnone listing, hnone, .inl hsame⟩
  | prepared hprepared =>
    obtain ⟨after, hafter, hpublished⟩ := (recover_runs hprepared hlisting).done _ rfl
    exact ⟨after, hafter, hpublished.unpaused, .inr hpublished.holds⟩
  | published hpublished =>
    exact ⟨directory, runAll_recover_of_none hpublished.unpaused listing, hpublished.unpaused,
      .inr hpublished.holds⟩

/-- An open recovers to `after`, where it decodes exactly what was in `before`. -/
def OpensUnchanged (format : FloatFormat) (before directory : Directory) (listing : List FileName)
    (after : Directory) : Prop :=
  SameMemory before after ∧ ∃ decoded, decodeDirectory format before = .ok decoded ∧
    openDirectory format directory listing = some (after, decoded)

/-- An open recovers to `after`, where the saved files are in place and decode as they do
wherever they are; they do decode when their lengths fit the format. -/
def OpensSaved (format : FloatFormat) (files : EncodedMemory) (directory : Directory)
    (listing : List FileName) (after : Directory) : Prop :=
  Holds after files ∧
    (∀ other, Holds other files → decodeDirectory format after = decodeDirectory format other) ∧
    (files.Fits → ∃ decoded, openDirectory format directory listing = some (after, decoded))

theorem openDirectory_of_recovered {listing : List FileName} {after : Directory}
    {decoded : List LearningRecord}
    (hafter : runAll (recoverIfPaused directory listing) directory = some after)
    (hdecoded : decodeDirectory format after = .ok decoded) :
    openDirectory format directory listing = some (after, decoded) := by
  rw [openDirectory, hafter]
  simp [hdecoded, Except.toOption]

theorem opensUnchanged {listing : List FileName} {after : Directory}
    (hvalid : ∃ decoded, decodeDirectory format before = .ok decoded)
    (hafter : runAll (recoverIfPaused directory listing) directory = some after)
    (hsame : SameMemory before after) : OpensUnchanged format before directory listing after := by
  obtain ⟨decoded, hdecoded⟩ := hvalid
  exact ⟨hsame, decoded, hdecoded,
    openDirectory_of_recovered hafter ((hsame.decode format).trans hdecoded)⟩

theorem opensSaved {listing : List FileName} {after : Directory} {state : LearningState}
    {records : List LearningRecord}
    (hafter : runAll (recoverIfPaused directory listing) directory = some after)
    (hholds : Holds after (state.filesToSave unicode format records)) :
    OpensSaved format (state.filesToSave unicode format records) directory listing after := by
  refine ⟨hholds, fun other hother => decodeDirectory_holds hholds hother, ?_⟩
  intro hfits
  obtain ⟨decoded, hdecoded⟩ := decodeDirectory_encodeFiles hholds hfits
  exact ⟨decoded, openDirectory_of_recovered hafter hdecoded⟩

/-! ### One save -/

/-- A commit or forget that saves. -/
structure Attempt where
  state : LearningState
  call : SaveCall
  records : List LearningRecord
  saves : state.recordsToSave call = some records

def Attempt.encoded (unicode : UnicodeTable) (format : FloatFormat) (attempt : Attempt) :
    EncodedMemory :=
  attempt.state.filesToSave unicode format attempt.records

def learnedState (temporary : List LearningRecord) : LearningState where
  characterIds := ⟨[['ア']], by decide⟩
  mode := .inputAndOutput
  maxCount := 65536
  today := 0
  persisted := []
  temporary

def learnedRecord : LearningRecord where
  entry :=
    { word := ['亜'], ruby := ['ア'], leftId := 1288, rightId := 1288, meaningId := 501
      baseValue := -10 }
  lastUsedDay := 0
  lastUpdatedDay := 0
  count := 1

def firstCommit : Attempt := ⟨learnedState [learnedRecord], .commit, [learnedRecord], rfl⟩

def laterForget : Attempt := ⟨learnedState [], .forget [learnedRecord.entry], [], rfl⟩

def sampleFormat : FloatFormat where
  toBits _ := 0xc0fee001
  fromBits _ := -16703489 / 2097152

theorem savedRecords_learnedRecord :
    (learnedState [learnedRecord]).savedRecords [learnedRecord] = [learnedRecord] := by
  have hkept : decayRecord 0 learnedRecord = some learnedRecord := by
    rw [decayRecord]
    simp [learnedRecord, halve]
  simp [LearningState.savedRecords, decay, learnedState, hkept]

theorem savedRecords_nil : (learnedState []).savedRecords [] = [] := by
  simp [LearningState.savedRecords, decay]

theorem encoded_firstCommit (format : FloatFormat) : firstCommit.encoded unicode format =
    encodeFiles unicode format [learnedRecord] (learnedState []).characterIds := by
  rw [Attempt.encoded, LearningState.filesToSave]
  simp only [firstCommit, savedRecords_learnedRecord]
  rfl

theorem encoded_laterForget (format : FloatFormat) : laterForget.encoded unicode format =
    encodeFiles unicode format [] (learnedState []).characterIds := by
  rw [Attempt.encoded, LearningState.filesToSave]
  simp only [laterForget, savedRecords_nil]

/-- What the commit leaves that fails after it has set its marker. -/
def AfterCommit (format : FloatFormat) (directory : Directory) : Prop :=
  Prepared (firstCommit.encoded .kana format) directory ∧
    Cut (saveRecords .kana format firstCommit.state firstCommit.records) (fun _ => none) directory

theorem exists_afterCommit (format : FloatFormat) : ∃ directory, AfterCommit format directory := by
  obtain ⟨written, hwritten, hheld⟩ := runAll_writeSteps (firstCommit.encoded .kana format)
    fun _ => none
  refine ⟨_, hheld.pause [], cut_append_of_runAll hwritten ?_⟩
  rw [publishSteps_eq]
  exact .next rfl (.stop _ _)

/-- A save that is cut anywhere, then recovered with any number of further cuts: the next open
recovers, and reads exactly the old memory or exactly the saved one. Files with more in them than
their fields can count are read as they would be after a whole save, maybe with an error. -/
theorem save_atomic (unicode : UnicodeTable) (format : FloatFormat) (attempt : Attempt)
    {before crashed reopened : Directory}
    (hvalid : ∃ decoded, decodeDirectory format before = .ok decoded)
    (hunpaused : before pauseFile = none)
    (hcrashed : Cut (saveRecords unicode format attempt.state attempt.records) before crashed)
    (hreopened : Restarted Recovery crashed reopened) {listing : List FileName}
    (hlisting : IsListing reopened listing) :
    ∃ after, runAll (recoverIfPaused reopened listing) reopened = some after ∧
      after pauseFile = none ∧
      (OpensUnchanged format before reopened listing after ∨
        OpensSaved format (attempt.encoded unicode format) reopened listing after) := by
  have hstate := hreopened.keeps (fun _ _ h hsteps _ hcut => h.recovery hunpaused hsteps hcut)
    (saveState_of_cut hcrashed)
  obtain ⟨after, hafter, hnone, hside⟩ := hstate.recovered hunpaused hlisting
  refine ⟨after, hafter, hnone, ?_⟩
  cases hside with
  | inl hsame => exact .inl (opensUnchanged hvalid hafter hsame)
  | inr hholds => exact .inr (opensSaved hafter hholds)

/-- A first commit that stops after its marker. -/
theorem save_atomic_firstCommit :
    ∃ crashed listing, AfterCommit sampleFormat crashed ∧ IsListing crashed listing ∧
      ∃ after, runAll (recoverIfPaused crashed listing) crashed = some after ∧
        after pauseFile = none ∧
        (OpensUnchanged sampleFormat (fun _ => none) crashed listing after ∨
          OpensSaved sampleFormat (firstCommit.encoded .kana sampleFormat) crashed
            listing after) := by
  obtain ⟨crashed, hcrashed⟩ := exists_afterCommit sampleFormat
  obtain ⟨listing, hlisting⟩ := exists_listing_of_cut hcrashed.2 ⟨[], isListing_empty⟩
  exact ⟨crashed, listing, hcrashed, hlisting, save_atomic .kana sampleFormat firstCommit
    ⟨[], decodeDirectory_of_none rfl⟩ rfl hcrashed.2 (.refl crashed) hlisting⟩

/-! ### Further saves after a failed one -/

/-- Attempts one after the other, each of which may fail or be cut at any step. -/
inductive Attempts (unicode : UnicodeTable) (format : FloatFormat)
    (allowed : Directory → EncodedMemory → Directory → Prop) :
    Directory → List Attempt → Directory → Prop
  | nil (directory : Directory) : Attempts unicode format allowed directory [] directory
  | cons {directory left after : Directory} (attempt : Attempt) {rest : List Attempt}
      (hcut : Cut (saveRecords unicode format attempt.state attempt.records) directory left)
      (hallowed : allowed directory (attempt.encoded unicode format) left)
      (hrest : Attempts unicode format allowed left rest after) :
      Attempts unicode format allowed directory (attempt :: rest) after

/-- The attempt does not stop among its temporary files while the marker of an earlier one is
there: it finds no marker, or leaves everything as it was, or writes all of them. -/
def KeepsTemporaries (directory : Directory) (files : EncodedMemory) (left : Directory) : Prop :=
  directory pauseFile = none ∨ left = directory ∨
    ∃ written, runAll (writeSteps files) directory = some written ∧
      Cut (publishSteps files) written left

/-- The memory of the start, or of one single attempt, is what the next open will find. -/
inductive AttemptsState (before : Directory) (saved : EncodedMemory → Prop)
    (directory : Directory) : Prop
  | untouched (hnone : directory pauseFile = none) (h : SameMemory before directory)
  | prepared (files : EncodedMemory) (hsaved : saved files) (h : Prepared files directory)
  | published (files : EncodedMemory) (hsaved : saved files) (h : Published files directory)

/-- Wherever an attempt is cut, it has changed temporary files only or is prepared or published. -/
theorem AttemptsState.of_cut {saved : EncodedMemory → Prop}
    (hcut : Cut (saveSteps files) directory left)
    (hsaved : saved files) (hsame : SameMemory directory left → AttemptsState before saved left) :
    AttemptsState before saved left := by
  cases saveState_of_cut hcut with
  | untouched h => exact hsame h
  | prepared h => exact .prepared files hsaved h
  | published h => exact .published files hsaved h

/-- An attempt on a prepared directory that writes all its temporary files replaces the
prepared save by its own. -/
theorem cut_of_written {other : EncodedMemory} {written : Directory}
    (h : Prepared other directory) (hwritten : runAll (writeSteps files) directory = some written)
    (hcut : Cut (publishSteps files) written left) :
    Prepared files left ∨ Published files left := by
  obtain ⟨final, hfinal, hheld⟩ := runAll_writeSteps files directory
  obtain rfl := Option.some.inj (hwritten.symm.trans hfinal)
  obtain rfl | hstate := cut_publishSteps hheld hcut
  · have hpause := (sameMemory_of_cut_write (cut_of_runAll hwritten)).pause
    exact .inl ⟨by rw [hpause]; exact h.paused, hheld⟩
  · exact hstate

theorem AttemptsState.attempt {saved : EncodedMemory → Prop}
    (h : AttemptsState before saved directory) (hcut : Cut (saveSteps files) directory left)
    (hkeeps : KeepsTemporaries directory files left) (hsaved : saved files) :
    AttemptsState before saved left := by
  cases h with
  | untouched hnone hsame =>
    exact .of_cut hcut hsaved fun hleft =>
      .untouched (hleft.pause.trans hnone) (hsame.trans hleft)
  | published other hother hpublished =>
    exact .of_cut hcut hsaved fun hleft =>
      .published other hother ⟨hleft.pause.trans hpublished.unpaused, hleft.holds hpublished.holds⟩
  | prepared other hother hprepared =>
    obtain hnone | rfl | ⟨written, hwritten, hpublish⟩ := hkeeps
    · exact absurd hprepared.paused (by rw [hnone]; exact Bool.false_ne_true)
    · exact .prepared other hother hprepared
    · cases cut_of_written hprepared hwritten hpublish with
      | inl hleft => exact .prepared files hsaved hleft
      | inr hleft => exact .published files hsaved hleft

theorem Attempts.state {attempts : List Attempt}
    (h : Attempts unicode format KeepsTemporaries directory attempts left)
    {saved : EncodedMemory → Prop}
    (hsaved : ∀ attempt ∈ attempts, saved (attempt.encoded unicode format))
    (hstate : AttemptsState before saved directory) : AttemptsState before saved left := by
  induction h with
  | nil => exact hstate
  | cons attempt hcut hallowed _ ih =>
    exact ih (fun other hin => hsaved other (List.mem_cons_of_mem _ hin))
      (hstate.attempt hcut hallowed (hsaved attempt List.mem_cons_self))

/-- As long as no attempt stops among its temporary files while an earlier marker is there, the
next open reads exactly the memory of the start or exactly what one attempt was saving, without an
error where that fits its fields. -/
theorem attempts_atomic (unicode : UnicodeTable) (format : FloatFormat) {attempts : List Attempt}
    {before directory : Directory}
    (hvalid : ∃ decoded, decodeDirectory format before = .ok decoded)
    (hunpaused : before pauseFile = none)
    (hattempts : Attempts unicode format KeepsTemporaries before attempts directory)
    {listing : List FileName} (hlisting : IsListing directory listing) :
    ∃ after, runAll (recoverIfPaused directory listing) directory = some after ∧
      after pauseFile = none ∧
      (OpensUnchanged format before directory listing after ∨ ∃ attempt ∈ attempts,
        OpensSaved format (attempt.encoded unicode format) directory listing after) := by
  have hstart : AttemptsState before (fun files => ∃ attempt ∈ attempts,
      files = attempt.encoded unicode format) before := .untouched hunpaused fun _ _ => rfl
  cases hattempts.state (fun attempt hin => ⟨attempt, hin, rfl⟩) hstart with
  | untouched hnone hsame =>
    have hafter := runAll_recover_of_none hnone listing
    exact ⟨directory, hafter, hnone, .inl (opensUnchanged hvalid hafter hsame)⟩
  | prepared _ hsaved hprepared =>
    obtain ⟨attempt, hin, rfl⟩ := hsaved
    obtain ⟨after, hafter, hpublished⟩ := (recover_runs hprepared hlisting).done _ rfl
    exact ⟨after, hafter, hpublished.unpaused,
      .inr ⟨attempt, hin, opensSaved hafter hpublished.holds⟩⟩
  | published _ hsaved hpublished =>
    obtain ⟨attempt, hin, rfl⟩ := hsaved
    have hafter := runAll_recover_of_none hpublished.unpaused listing
    exact ⟨directory, hafter, hpublished.unpaused,
      .inr ⟨attempt, hin, opensSaved hafter hpublished.holds⟩⟩

/-- The commit that failed, then a forget that writes all its temporary files and stops. -/
theorem attempts_atomic_forget :
    ∃ directory listing, Attempts .kana sampleFormat KeepsTemporaries (fun _ => none)
        [firstCommit, laterForget] directory ∧ IsListing directory listing ∧
      ∃ after, runAll (recoverIfPaused directory listing) directory = some after ∧
        after pauseFile = none ∧
        (OpensUnchanged sampleFormat (fun _ => none) directory listing after ∨
          ∃ attempt ∈ [firstCommit, laterForget],
            OpensSaved sampleFormat (attempt.encoded .kana sampleFormat) directory
              listing after) := by
  obtain ⟨crashed, hcrashed⟩ := exists_afterCommit sampleFormat
  obtain ⟨written, hwritten, -⟩ :=
    runAll_writeSteps (laterForget.encoded .kana sampleFormat) crashed
  have hcut : Cut (saveRecords .kana sampleFormat laterForget.state laterForget.records) crashed
      written := cut_append_of_runAll hwritten (.stop _ _)
  have hattempts : Attempts .kana sampleFormat KeepsTemporaries (fun _ => none)
      [firstCommit, laterForget] written :=
    .cons _ hcrashed.2 (.inl rfl) (.cons _ hcut (.inr (.inr ⟨written, hwritten, .stop _ _⟩))
      (.nil _))
  obtain ⟨listing, hlisting⟩ := exists_listing_of_cut hcut
    (exists_listing_of_cut hcrashed.2 ⟨[], isListing_empty⟩)
  exact ⟨written, listing, hattempts, hlisting, attempts_atomic .kana sampleFormat
    ⟨[], decodeDirectory_of_none rfl⟩ rfl hattempts hlisting⟩

/-! ### A commit that failed, then a forget that was cut -/

/-- What the forget then leaves that is cut after its first temporary file. -/
def afterForget (format : FloatFormat) (directory : Directory) : Directory :=
  Function.update directory (temporaryFile loudsFile)
    (some (laterForget.encoded .kana format).louds)

theorem cut_afterForget (format : FloatFormat) (directory : Directory) :
    Cut (saveRecords .kana format laterForget.state laterForget.records) directory
      (afterForget format directory) :=
  .next rfl (.stop _ _)

/-- The next open takes the topology from the forget and the characters from the commit. -/
theorem recovered_afterForget {format : FloatFormat} {directory after : Directory}
    {listing : List FileName} (h : AfterCommit format directory)
    (hlisting : IsListing (afterForget format directory) listing)
    (hafter : runAll (recoverIfPaused (afterForget format directory) listing)
      (afterForget format directory) = some after) :
    after loudsFile = some (laterForget.encoded .kana format).louds ∧
      after loudsCharsFile = some (firstCommit.encoded .kana format).characters := by
  have hpaused : (afterForget format directory pauseFile).isSome := by
    rw [afterForget, Function.update_of_ne (temporaryFile_ne_pauseFile _).symm]
    exact h.1.paused
  obtain ⟨-, hrecovered⟩ := recovered_of_run hpaused hlisting hafter
  constructor
  · rw [hrecovered.louds, afterForget, Function.update_self]
  · have hcharacters := h.1.temporaries _ (mem_memoryFiles.mpr (.inr (.inl rfl)))
    rw [hrecovered.characters, afterForget, Function.update_of_ne (by decide), hcharacters]

/-- Without the condition the next open can read files of two attempts. -/
theorem attempts_mix :
    ¬∀ (unicode : UnicodeTable) (format : FloatFormat) (attempts : List Attempt)
      (before directory : Directory),
      (∃ decoded, decodeDirectory format before = .ok decoded) → before pauseFile = none →
      Attempts unicode format (fun _ _ _ => True) before attempts directory →
      ∀ listing, IsListing directory listing →
      ∃ after, runAll (recoverIfPaused directory listing) directory = some after ∧
        after pauseFile = none ∧
        (OpensUnchanged format before directory listing after ∨ ∃ attempt ∈ attempts,
          OpensSaved format (attempt.encoded unicode format) directory listing after) := by
  intro hall
  obtain ⟨directory, hdirectory⟩ := exists_afterCommit sampleFormat
  have hcut := cut_afterForget sampleFormat directory
  obtain ⟨listing, hlisting⟩ := exists_listing_of_cut hcut
    (exists_listing_of_cut hdirectory.2 ⟨[], isListing_empty⟩)
  obtain ⟨after, hafter, -, hside⟩ := hall .kana sampleFormat [firstCommit, laterForget]
    (fun _ => none)
    (afterForget sampleFormat directory) ⟨[], decodeDirectory_of_none rfl⟩ rfl
    (.cons _ hdirectory.2 trivial (.cons _ hcut trivial (.nil _))) listing hlisting
  obtain ⟨hlouds, hcharacters⟩ := recovered_afterForget hdirectory hlisting hafter
  cases hside with
  | inl hunchanged =>
    have hnone := hunchanged.1.memory .louds
    rw [hlouds] at hnone
    exact absurd hnone (by simp)
  | inr hsaved =>
    obtain ⟨attempt, hattempt, hholds, -⟩ := hsaved
    simp only [List.mem_cons, List.not_mem_nil, or_false] at hattempt
    have hne : (MemoryTrie.new .kana [] (learnedState []).characterIds).encode.louds ≠
          (MemoryTrie.new .kana [learnedRecord] (learnedState []).characterIds).encode.louds ∧
        (MemoryTrie.new .kana [learnedRecord] (learnedState []).characterIds).encode.characters ≠
          (MemoryTrie.new .kana [] (learnedState []).characterIds).encode.characters := by
      decide +kernel
    cases hattempt with
    | inl hcommit =>
      have heq := hlouds.symm.trans (hcommit ▸ hholds.louds)
      rw [encoded_firstCommit, encoded_laterForget] at heq
      exact hne.1 (Option.some.inj heq)
    | inr hforget =>
      have heq := hcharacters.symm.trans (hforget ▸ hholds.characters)
      rw [encoded_firstCommit, encoded_laterForget] at heq
      exact hne.2 (Option.some.inj heq)

end BeanKey.Learning
