import BeanKey.Learning.Trip

/-! Commits: a store opened anew on the directory answers as the running one. -/
namespace BeanKey.Learning
open BeanKey.Lattice Crash
open BeanKey.Dictionary (CharacterIdMap FloatFormat)

/-! ### Histories in which the files keep up -/

section
variable (unicode : UnicodeTable) (format : FloatFormat) (characterIds : CharacterIdMap)

def SaveUncut (store : LearningStore) (call : SaveCall) : Prop :=
  ∀ records, store.state.recordsToSave call = some records →
    FewRecords (store.state.savedRecords records)

def DatedUpTo (day : UInt16) (directory : Directory) : Prop :=
  ∀ decoded, decodeDirectory format directory = .ok decoded → ∀ record ∈ decoded,
    NotAfter day record

def Quiet (world : World) (today : UInt16) : Event → Prop
  | .lookup _ _ _ | .learn _ | .learnPostPrediction _ _ | .reopenFails => True
  | .save call => (world.saving unicode today call).state.recordsToSave call = none
  | _ => False

/-- Since a first open, a save without a cut, a reset or an open whose files are not from a later
day, the clock has not gone back and no save or reset has failed. -/
inductive KeepsUp : World → Prop
  | opened {mode : LearningMode} {maxCount : Nat} {today : UInt16} {directory : Directory}
      {state : LearningState}
      (hopen : openMemory unicode format (fun _ => none) [] mode maxCount characterIds today =
        some (directory, state)) : KeepsUp ⟨.ofState unicode state, directory⟩
  | saved {world next : World} {today : UInt16} {call : SaveCall}
      (hreached : Reached unicode format characterIds (Allowed unicode format) world)
      (hwrites : ((world.saving unicode today call).state.recordsToSave call).isSome)
      (hfits : SaveFits unicode format (world.saving unicode today call) call)
      (huncut : SaveUncut (world.saving unicode today call) call)
      (hstep : Step unicode format today world (.save call) next) : KeepsUp next
  | reset {world next : World} {today : UInt16}
      (hstep : Step unicode format today world .reset next) : KeepsUp next
  | reopened {world next : World} {today : UInt16} {mode : LearningMode} {maxCount : Nat}
      (hstep : Step unicode format today world (.reopen mode maxCount) next)
      (hdated : DatedUpTo format today next.directory) : KeepsUp next
  | kept {world next : World} {today : UInt16} {event : Event} (hkeeps : KeepsUp world)
      (hquiet : Quiet unicode world today event) (hday : world.store.state.today ≤ today)
      (hstep : Step unicode format today world event next) : KeepsUp next

/-- The commit writes without a cut, or has nothing to write and the files have kept up. -/
def CommitKeeps (world : World) (today : UInt16) : Prop :=
  match (world.saving unicode today .commit).state.recordsToSave .commit with
  | some records =>
    ((world.saving unicode today .commit).state.filesToSave unicode format records).Fits ∧
      FewRecords ((world.saving unicode today .commit).state.savedRecords records)
  | none => KeepsUp unicode format characterIds world ∧ world.store.state.today ≤ today

end

section
variable {unicode : UnicodeTable} {format : FloatFormat} {characterIds : CharacterIdMap}
  {world next : World} {today : UInt16}

theorem memorize_keeps (store : LearningStore) (entry : DictionaryEntry) :
    ∃ temporary, (store.memorize unicode entry).state = { store.state with temporary } := by
  rw [LearningStore.memorize]
  split
  · split
    · exact ⟨store.state.temporary, rfl⟩
    · split
      · exact ⟨_, rfl⟩
      · exact ⟨_, rfl⟩
  · exact ⟨store.state.temporary, rfl⟩

theorem learn_keeps (store : LearningStore) (entries : List DictionaryEntry) :
    ∃ temporary, (store.learn unicode entries).state = { store.state with temporary } := by
  rw [LearningStore.learn]
  split
  · next hmode =>
    clear hmode
    induction entries generalizing store with
    | nil => exact ⟨store.state.temporary, rfl⟩
    | cons entry rest ih =>
      obtain ⟨learned, hlearned⟩ := @memorize_keeps unicode store entry
      obtain ⟨temporary, htemporary⟩ := ih (store.memorize unicode entry)
      exact ⟨temporary, by rw [List.foldl_cons, htemporary, hlearned]⟩
  · exact ⟨store.state.temporary, rfl⟩

theorem beforeSave_keeps (store : LearningStore) (call : SaveCall) :
    ∃ temporary, (store.beforeSave unicode call).state = { store.state with temporary } := by
  cases call with
  | commit => exact ⟨store.state.temporary, rfl⟩
  | forget entries =>
    rw [LearningStore.beforeSave, LearningStore.forgetTemporary]
    split
    · exact ⟨_, rfl⟩
    · exact ⟨store.state.temporary, rfl⟩

/-- A directory is read only by a store that uses its memory. -/
def MatchesIfUsed (unicode : UnicodeTable) (format : FloatFormat) (world : World) : Prop :=
  world.store.state.mode.usesMemory = true → Matches unicode format world

theorem MatchesIfUsed.quiet (h : MatchesIfUsed unicode format world)
    (hday : world.store.state.today ≤ today) {store : LearningStore}
    {temporary : List LearningRecord}
    (hstate : store.state = { (world.store.refreshDay unicode today).state with temporary }) :
    MatchesIfUsed unicode format { world with store } := by
  intro hmode
  dsimp only at hmode
  rw [hstate] at hmode
  dsimp only at hmode
  rw [(refreshDay_state world.store today).2.1] at hmode
  exact ((h hmode).refresh hday).of_temporary hstate

theorem MatchesIfUsed.kept (h : MatchesIfUsed unicode format world) {event : Event}
    (hquiet : Quiet unicode world today event) (hday : world.store.state.today ≤ today)
    (hstep : Step unicode format today world event next) : MatchesIfUsed unicode format next := by
  cases hstep with
  | lookup kind ruby maximumLength => exact h.quiet hday rfl
  | learn hids =>
    obtain ⟨temporary, hstate⟩ := learn_keeps _ _
    exact h.quiet hday hstate
  | learnPostPrediction hids =>
    obtain ⟨temporary, hstate⟩ := learn_keeps _ _
    exact h.quiet hday hstate
  | saveNothing hnone =>
    obtain ⟨temporary, hstate⟩ := beforeSave_keeps _ _
    exact h.quiet hday hstate
  | save hrecords hrun =>
    rw [Quiet, hrecords] at hquiet
    exact absurd hquiet (by simp)
  | saveFails hrecords hcut => exact hquiet.elim
  | reset hlisting hrun => exact hquiet.elim
  | resetFails hlisting hcut => exact hquiet.elim
  | reopen hlisting hopen => exact hquiet.elim
  | reopenFails hlisting hcut =>
    intro hmode
    have hmatches := h hmode
    rw [recoverIfPaused_of_none hmatches.unpaused] at hcut
    cases hcut
    exact hmatches

theorem MatchesIfUsed.of_open {directory after : Directory} {listing : List FileName}
    {mode : LearningMode} {maxCount : Nat} {state : LearningState}
    (hlisting : IsListing directory listing)
    (hopen : openMemory unicode format directory listing mode maxCount characterIds today =
      some (after, state)) (hdated : DatedUpTo format today after) :
    MatchesIfUsed unicode format ⟨.ofState unicode state, after⟩ := by
  intro hused
  obtain ⟨hmode, -⟩ | ⟨hmode, -, rfl⟩ := openMemory_cases hopen
  · exact .of_open hmode hlisting hopen hdated
  · exact absurd (hmode.symm.trans hused) (by decide)

theorem openMemory_unpaused {directory after : Directory} {listing : List FileName}
    {mode : LearningMode} {maxCount : Nat} {state : LearningState}
    (hnone : directory pauseFile = none)
    (hopen : openMemory unicode format directory listing mode maxCount characterIds today =
      some (after, state)) : after = directory := by
  obtain ⟨-, hrecovered, -⟩ | ⟨-, hsame, -⟩ := openMemory_cases hopen
  · rw [runAll_recover_of_none hnone] at hrecovered
    exact (Option.some.inj hrecovered).symm
  · exact hsame

theorem openMemory_state {directory after : Directory} {listing : List FileName}
    {mode : LearningMode} {maxCount : Nat} {state : LearningState}
    (hopen : openMemory unicode format directory listing mode maxCount characterIds today =
      some (after, state)) : state.mode = mode ∧ state.temporary = [] := by
  obtain ⟨-, -, -, -, rfl⟩ | ⟨-, -, rfl⟩ := openMemory_cases hopen
  · exact ⟨rfl, rfl⟩
  · exact ⟨rfl, rfl⟩

theorem Reached.learnable
    (hreached : Reached unicode format characterIds (Allowed unicode format) world)
    {call : SaveCall} {records : List LearningRecord}
    (hrecords : (world.saving unicode today call).state.recordsToSave call = some records) :
    ∀ record ∈ records, Learnable unicode (world.saving unicode today call).state.characterIds
      record.entry := by
  have hsaving : Consistent unicode (world.saving unicode today call) :=
    (hreached.invariant.consistent.refreshDay today).beforeSave call
  exact fun record hin =>
    (hsaving.recordsToSave hrecords).learnable _ (List.mem_map.mpr ⟨record, hin, rfl⟩)

theorem Reached.matches_save
    (hreached : Reached unicode format characterIds (Allowed unicode format) world)
    {call : SaveCall}
    (hwrites : ((world.saving unicode today call).state.recordsToSave call).isSome)
    (hfits : SaveFits unicode format (world.saving unicode today call) call)
    (huncut : SaveUncut (world.saving unicode today call) call)
    (hstep : Step unicode format today world (.save call) next) : Matches unicode format next := by
  cases hstep with
  | saveNothing hnone =>
    rw [hnone] at hwrites
    exact absurd hwrites (by simp)
  | save hrecords hrun =>
    exact .of_save (hreached.learnable hrecords) (hfits _ hrecords) (huncut _ hrecords) hrun

theorem KeepsUp.matches (h : KeepsUp unicode format characterIds world) :
    MatchesIfUsed unicode format world := by
  induction h with
  | opened hopen =>
    refine .of_open isListing_empty hopen ?_
    rw [openMemory_unpaused rfl hopen]
    intro decoded hdecoded record hin
    rw [decodeDirectory_of_none rfl] at hdecoded
    obtain rfl := Except.ok.inj hdecoded
    exact absurd hin List.not_mem_nil
  | saved hreached hwrites hfits huncut hstep =>
    exact fun _ => hreached.matches_save hwrites hfits huncut hstep
  | reset hstep =>
    cases hstep with
    | reset hlisting hrun => exact fun _ => .of_reset hlisting hrun
  | reopened hstep hdated =>
    cases hstep with
    | reopen hlisting hopen => exact .of_open hlisting hopen hdated
  | kept hkeeps hquiet hday hstep ih => exact ih.kept hquiet hday hstep

def TemporaryIfUpdated (store : LearningStore) : Prop :=
  store.state.mode.updatesMemory = false → store.state.temporary = []

theorem TemporaryIfUpdated.refreshDay {store : LearningStore} (h : TemporaryIfUpdated store)
    (today : UInt16) : TemporaryIfUpdated (store.refreshDay unicode today) := by
  rw [LearningStore.refreshDay]
  split
  · exact h
  · intro hmode
    exact congrArg (decay · today) (h hmode)

theorem TemporaryIfUpdated.learn {store : LearningStore} (h : TemporaryIfUpdated store)
    (entries : List DictionaryEntry) : TemporaryIfUpdated (store.learn unicode entries) := by
  intro hmode
  obtain ⟨temporary, hstate⟩ := @learn_keeps unicode store entries
  rw [hstate] at hmode
  rw [LearningStore.learn, if_neg (by rw [hmode]; decide)]
  exact h hmode

theorem TemporaryIfUpdated.beforeSave {store : LearningStore} (h : TemporaryIfUpdated store)
    (call : SaveCall) : TemporaryIfUpdated (store.beforeSave unicode call) := by
  cases call with
  | commit => exact h
  | forget entries =>
    rw [LearningStore.beforeSave, LearningStore.forgetTemporary]
    split
    · next hmode =>
      intro hnot
      exact absurd (hmode.symm.trans hnot) (by decide)
    · exact h

theorem recordsToSave_updates {state : LearningState} {call : SaveCall}
    {records : List LearningRecord} (h : state.recordsToSave call = some records) :
    state.mode.updatesMemory = true := by
  cases hmode : state.mode.updatesMemory with
  | true => rfl
  | false => cases call <;> simp [LearningState.recordsToSave, hmode] at h

theorem afterSave_mode (store : LearningStore) (records : List LearningRecord) (call : SaveCall) :
    (store.afterSave unicode records call).state.mode = store.state.mode := by
  cases call <;> rfl

theorem Reached.temporaryIfUpdated {allowed : World → UInt16 → Event → Prop}
    (h : Reached unicode format characterIds allowed world) : TemporaryIfUpdated world.store := by
  induction h with
  | opened hopen => exact fun _ => (openMemory_state hopen).2
  | step _ hallowed hstep ih =>
    cases hstep with
    | lookup kind ruby maximumLength => exact ih.refreshDay _
    | learn hids => exact (ih.refreshDay _).learn _
    | learnPostPrediction hids => exact (ih.refreshDay _).learn _
    | saveNothing hnone => exact (ih.refreshDay _).beforeSave _
    | save hrecords hrun =>
      intro hmode
      rw [afterSave_mode, recordsToSave_updates hrecords] at hmode
      exact absurd hmode (by decide)
    | saveFails hrecords hcut => exact (ih.refreshDay _).beforeSave _
    | reset hlisting hrun => exact fun _ => rfl
    | resetFails hlisting hcut => exact fun _ => rfl
    | reopen hlisting hopen => exact fun _ => (openMemory_state hopen).2
    | reopenFails hlisting hcut => exact ih

theorem commit_matches
    (hreached : Reached unicode format characterIds (Allowed unicode format) world)
    (hkeeps : CommitKeeps unicode format characterIds world today)
    (hstep : Step unicode format today world (.save .commit) next) :
    MatchesIfUsed unicode format next ∧ next.store.state.temporary = [] := by
  cases hstep with
  | saveNothing hnone =>
    rw [CommitKeeps, hnone] at hkeeps
    refine ⟨hkeeps.1.matches.quiet hkeeps.2 rfl, ?_⟩
    rw [LearningState.recordsToSave] at hnone
    split at hnone
    · next hskip =>
      cases Bool.or_eq_true_iff.mp hskip with
      | inl hmode =>
        exact hreached.temporaryIfUpdated.refreshDay today (Bool.not_eq_true' _ |>.mp hmode)
      | inr hempty => exact List.isEmpty_iff.mp hempty
    · exact absurd hnone (by simp)
  | save hrecords hrun =>
    rw [CommitKeeps, hrecords] at hkeeps
    exact ⟨fun _ => .of_save (hreached.learnable hrecords) hkeeps.1 hkeeps.2 hrun, rfl⟩

theorem CommitKeeps.allowed (h : CommitKeeps unicode format characterIds world today) :
    Allowed unicode format world today (.save .commit) := by
  intro records hrecords
  rw [CommitKeeps, hrecords] at h
  exact h.1

end

/-- A store opened anew on the directory, on the same day and in the same mode, answers every
lookup with the same entries. -/
def ReopensSame (unicode : UnicodeTable) (format : FloatFormat) (characterIds : CharacterIdMap)
    (world : World) (today : UInt16) (listing : List FileName) (maxCount : Nat) : Prop :=
  ∃ directory state,
    openMemory unicode format world.directory listing world.store.state.mode maxCount characterIds
      today = some (directory, state) ∧
    ∀ kind ruby maximumLength, ∃ running reopened,
      world.store.lookup unicode kind ruby maximumLength = some running ∧
        (LearningStore.ofState unicode state).lookup unicode kind ruby maximumLength =
          some reopened ∧
          (running.map shown).Perm (reopened.map shown)

/-- What a commit leaves in the directory is what the running store answers from. -/
theorem commit_durable {unicode : UnicodeTable} {format : FloatFormat}
    {characterIds : CharacterIdMap} {world next : World} {today : UInt16}
    (hreached : Reached unicode format characterIds (Allowed unicode format) world)
    (hkeeps : CommitKeeps unicode format characterIds world today)
    (hstep : Step unicode format today world (.save .commit) next) {listing : List FileName}
    (hlisting : IsListing next.directory listing) (maxCount : Nat) :
    ReopensSame unicode format characterIds next today listing maxCount := by
  have hnext := hreached.invariant.step hkeeps.allowed hstep
  obtain ⟨hmatches, htemporary⟩ := commit_matches hreached hkeeps hstep
  have htoday : next.store.state.today = today := by
    cases hstep with
    | saveNothing hnone => exact (refreshDay_state _ _).1
    | save hrecords hrun => exact (refreshDay_state _ _).1
  cases hmode : next.store.state.mode.usesMemory with
  | false =>
    refine ⟨next.directory, _, if_neg (by rw [hmode]; decide), ?_⟩
    intro kind ruby maximumLength
    exact ⟨[], [], if_neg (by rw [hmode]; decide), if_neg (by
      change ¬next.store.state.mode.usesMemory = true
      rw [hmode]
      decide), List.Perm.refl _⟩
  | true =>
    obtain ⟨persisted, hsame, hopen⟩ := (hmatches hmode).openMemory hmode listing maxCount
    rw [hnext.characters, htoday] at hopen
    have hreopened := openMemory_invariant hnext.durable hlisting hopen
    exact ⟨_, _, hopen, lookup_same hnext.consistent hreopened.consistent
      hnext.characters.symm hmode
      hmode htemporary rfl hsame⟩

theorem savedRecords_reading : (learnedState [reading]).savedRecords [reading] = [reading] := by
  have hdecayed : decay [reading] 0 = [reading] := by
    simp only [decay, reading, kanaRecord, List.filterMap_cons, decayRecord_new, List.filterMap_nil]
  rw [LearningState.savedRecords]
  change (((decay [reading] 0).mergeSort _).take 65536) = _
  rw [hdecayed, List.mergeSort_singleton]
  rfl

/-- The store that has learned the reading commits it. -/
theorem commit_durable_kana : ∃ next listing,
    Step .kana sampleFormat 0 ⟨kanaStore, fun _ => none⟩ (.save .commit) next ∧
      IsListing next.directory listing ∧
        ReopensSame .kana sampleFormat (learnedState []).characterIds next 0 listing 65536 := by
  have hsaving : World.saving .kana ⟨kanaStore, fun _ => none⟩ 0 .commit = kanaStore :=
    refreshDay_self (by rw [learnedState_kana]; rfl)
  have hrecords : kanaStore.state.recordsToSave .commit = some [reading] := by
    rw [learnedState_kana]
    decide +kernel
  have hfiles : kanaStore.state.filesToSave .kana sampleFormat [reading] =
      encodeFiles .kana sampleFormat [reading] (learnedState []).characterIds := by
    rw [LearningState.filesToSave, learnedState_kana, savedRecords_reading]
    rfl
  obtain ⟨directory, hrun, -⟩ := runAll_saveSteps (encodeFiles .kana sampleFormat [reading]
    (learnedState []).characterIds) fun _ => none
  obtain ⟨listing, hlisting⟩ := exists_listing_of_cut (cut_of_runAll hrun) ⟨[], isListing_empty⟩
  rw [← hfiles] at hrun
  have hstep : Step .kana sampleFormat 0 ⟨kanaStore, fun _ => none⟩ (.save .commit) _ :=
    .save _ (hsaving.symm ▸ hrecords) (hsaving.symm ▸ hrun)
  have hkeeps : CommitKeeps .kana sampleFormat (learnedState []).characterIds
      ⟨kanaStore, fun _ => none⟩ 0 := by
    rw [CommitKeeps, hsaving, hrecords]
    dsimp only
    rw [hfiles, learnedState_kana, savedRecords_reading]
    refine ⟨⟨by decide +kernel, by decide +kernel⟩, fun ruby => ?_⟩
    exact (List.length_filter_le _ _).trans (by decide)
  exact ⟨_, listing, hstep, hlisting, commit_durable reached_kana hkeeps hstep hlisting 65536⟩

/-! ### A word that is empty -/

theorem of_mem_lookup {unicode : UnicodeTable} {store : LearningStore} {kind : MatchKind}
    {ruby : Text} {maximumLength : Nat} {found : List DictionaryEntry}
    (h : store.lookup unicode kind ruby maximumLength = some found) {entry : DictionaryEntry}
    (hin : entry ∈ found) : ∃ record ∈ store.state.persisted ++ store.state.temporary,
      LearningStore.learnedEntry unicode record = entry := by
  have hrecords : ∀ {records found : List LearningRecord} {positions : List Nat},
      positions.mapM (fun index => records[index]?) = some found → found ⊆ records := by
    intro records found positions hfound record hrecord
    rw [← mapM_getElem? hfound] at hrecord
    obtain ⟨index, -, hindex⟩ := List.mem_filterMap.mp hrecord
    exact List.mem_of_getElem? hindex
  rw [LearningStore.lookup] at h
  split at h
  · obtain ⟨persisted, hpersisted, hrest⟩ := Option.bind_eq_some_iff.mp h
    obtain ⟨temporary, htemporary, hfound⟩ := Option.bind_eq_some_iff.mp hrest
    obtain rfl := Option.some.inj hfound
    obtain ⟨record, hrecord, rfl⟩ := List.mem_map.mp hin
    refine ⟨record, ?_, rfl⟩
    cases List.mem_append.mp hrecord with
    | inl hin => exact List.mem_append_left _ (hrecords hpersisted hin)
    | inr hin => exact List.mem_append_right _ (hrecords htemporary hin)
  · obtain rfl := Option.some.inj h
    exact absurd hin List.not_mem_nil

/-- The running store still answers with the empty word. -/
theorem lookup_wordless {store : LearningStore} {found : List DictionaryEntry}
    (hstate : store.state = { learnedState [] with persisted := [reading, wordless] })
    (hindex : store.persistedIndex = .new .kana store.state.persisted store.state.characterIds)
    (h : store.lookup .kana .exact ['ア'] 1 = some found) :
    LearningStore.learnedEntry .kana wordless ∈ found := by
  have hpositions : LearningStore.positions .kana store.state.characterIds
      store.persistedIndex.lookup .exact ['ア'] 1 = [0, 1] := by
    have hids : LearningStore.lookupIds (learnedState []).characterIds .exact
        ((graphemes .kana ['ア']).take 1) = some [0] := by decide +kernel
    rw [LearningStore.positions, if_neg (by decide), hindex, hstate]
    dsimp only
    rw [hids]
    dsimp only
    rw [MemoryLouds.lookup_exact (by decide)]
    decide +kernel
  rw [LearningStore.lookup, if_pos (by rw [hstate]; decide), hpositions, hstate] at h
  obtain ⟨persisted, hpersisted, hrest⟩ := Option.bind_eq_some_iff.mp h
  obtain ⟨temporary, -, hfound⟩ := Option.bind_eq_some_iff.mp hrest
  obtain rfl : [reading, wordless] = persisted := Option.some.inj hpersisted
  obtain rfl := Option.some.inj hfound
  simp

/-- After the commit the directory has the reading where the running store has an empty word. -/
theorem wordless_commit_differs : ∃ world next listing,
    Reached .kana sampleFormat (learnedState []).characterIds (fun _ _ _ => True) world ∧
      Step .kana sampleFormat 0 world (.save .commit) next ∧ IsListing next.directory listing ∧
        ¬ReopensSame .kana sampleFormat (learnedState []).characterIds next 0 listing 65536 := by
  obtain ⟨store, directory, listing, hstate, hreached, hstep, hpublished, hlisting⟩ :=
    committed_wordless
  refine ⟨_, _, listing, hreached, hstep, hlisting, ?_⟩
  rintro ⟨after, state, hopen, hanswers⟩
  have hcommitted : (store.afterSave .kana [reading, wordless] .commit).state =
      { learnedState [] with persisted := [reading, wordless] } := by
    rw [LearningStore.afterSave, LearningStore.clearTemporary, LearningStore.publish, hstate,
      savedRecords_wordless]
    rfl
  have hmode : (store.afterSave .kana [reading, wordless] .commit).state.mode =
      .inputAndOutput := by
    rw [hcommitted]
    rfl
  dsimp only at hopen
  rw [hmode, opened_wordless hpublished listing] at hopen
  obtain ⟨-, rfl⟩ := Prod.mk.inj (Option.some.inj hopen)
  obtain ⟨running, reopened, hrunning, hreopened, hperm⟩ := hanswers .exact ['ア'] 1
  have hin := hperm.subset (List.mem_map.mpr ⟨_, lookup_wordless hcommitted rfl hrunning, rfl⟩)
  obtain ⟨entry, hentry, hshown⟩ := List.mem_map.mp hin
  obtain ⟨record, hrecord, rfl⟩ := of_mem_lookup hreopened hentry
  have hwords : ∀ record ∈ [reading, wordless].map (storedRecord .kana sampleFormat),
      record.entry.word ≠ [] := by decide +kernel
  exact hwords record (by simpa [LearningStore.ofState, learnedState] using hrecord)
    (congrArg Shown.word hshown)

end BeanKey.Learning
