import BeanKey.Learning.Forgotten

/-! Calls that fail: what they leave in memory, and commits that are tried again. -/
namespace BeanKey.Learning
open BeanKey.Lattice Crash
open BeanKey.Dictionary (CharacterIdMap FloatFormat)

/-! ### The files of a save -/

section
variable {files others : EncodedMemory}

theorem mem_writeSteps {step : FileStep} : step ∈ writeSteps files ↔
    ∃ pair ∈ memoryFiles files, step = .write (temporaryFile pair.1) pair.2 := by
  rw [writeSteps_eq, List.map_map, List.mem_map]
  exact exists_congr fun pair => and_congr_right fun _ => eq_comm

theorem mem_publishSteps {step : FileStep} : step ∈ publishSteps files ↔
    step = .write pauseFile [] ∨ (∃ name ∈ publishedNames files, step = restoreTemporary name) ∨
      step = .remove pauseFile := by
  rw [publishSteps_eq, List.mem_cons, List.mem_append, List.mem_map, List.mem_singleton]
  refine or_congr_right (or_congr_left ?_)
  exact exists_congr fun name => and_congr_right fun _ => eq_comm

theorem mem_saveSteps_target {name : FileName} :
    (∃ step ∈ saveSteps files, name = step.target) ↔
      name = pauseFile ∨ ∃ memory ∈ publishedNames files,
        name = temporaryFile memory ∨ name = memory := by
  constructor
  · rintro ⟨step, hstep, rfl⟩
    cases List.mem_append.mp hstep with
    | inl hwrite =>
      obtain ⟨pair, hpair, rfl⟩ := mem_writeSteps.mp hwrite
      exact .inr ⟨pair.1, mem_publishedNames_iff.mpr ⟨pair, hpair, rfl⟩, .inl rfl⟩
    | inr hpublish =>
      obtain rfl | ⟨memory, hmemory, rfl⟩ | rfl := mem_publishSteps.mp hpublish
      · exact .inl rfl
      · exact .inr ⟨memory, hmemory, .inr rfl⟩
      · exact .inl rfl
  · rintro (rfl | ⟨memory, hmemory, rfl | rfl⟩)
    · exact ⟨_, List.mem_append_right _ (mem_publishSteps.mpr (.inl rfl)), rfl⟩
    · obtain ⟨pair, hpair, rfl⟩ := mem_publishedNames_iff.mp hmemory
      exact ⟨_, List.mem_append_left _ (mem_writeSteps.mpr ⟨pair, hpair, rfl⟩), rfl⟩
    · exact ⟨_, List.mem_append_right _ (mem_publishSteps.mpr (.inr (.inl ⟨_, hmemory, rfl⟩))), rfl⟩

/-- A save with as many shards changes all the names. -/
theorem publishedNames_mono (h : others.shards.length ≤ files.shards.length) {name : FileName}
    (hin : name ∈ publishedNames others) : name ∈ publishedNames files := by
  simp only [publishedNames, List.mem_append, List.mem_map, List.mem_range] at hin ⊢
  refine hin.imp_left (Or.imp_right ?_)
  rintro ⟨index, hindex, rfl⟩
  exact ⟨index, Nat.lt_of_lt_of_le hindex h, rfl⟩

/-- A save copies only what it has written. -/
theorem saveSteps_selfContained (known : FileName → Prop) :
    SelfContained known (saveSteps files) := by
  refine SelfContained.append ?_ ?_
  · refine selfContained_of_known fun step hstep source destination heq => ?_
    obtain ⟨pair, -, rfl⟩ := mem_writeSteps.mp hstep
    exact absurd heq (by simp)
  · refine selfContained_of_known fun step hstep source destination heq => .inr ?_
    obtain rfl | ⟨memory, hmemory, rfl⟩ | rfl := mem_publishSteps.mp hstep
    · exact absurd heq (by simp)
    · obtain ⟨pair, hpair, rfl⟩ := mem_publishedNames_iff.mp hmemory
      obtain ⟨rfl, -⟩ := Step.copy.inj heq
      exact ⟨_, mem_writeSteps.mpr ⟨pair, hpair, rfl⟩, rfl⟩
    · exact absurd heq (by simp)

/-- What an attempt of as many shards left makes no difference to a save that runs to its end. -/
theorem runAll_saveSteps_congr {directory other : Directory}
    (h : ∀ name, (∀ step ∈ saveSteps files, name ≠ step.target) → other name = directory name) :
    runAll (saveSteps files) other = runAll (saveSteps files) directory := by
  refine runAll_congr (saveSteps_selfContained fun name => ∀ step ∈ saveSteps files,
    name ≠ step.target) (fun name => ?_) h
  by_cases htarget : ∃ step ∈ saveSteps files, name = step.target
  · exact .inr htarget
  · exact .inl fun step hstep heq => htarget ⟨step, hstep, heq⟩

theorem cut_saveSteps_frame {directory left : Directory}
    (hcut : Cut (saveSteps others) directory left)
    (hshards : others.shards.length ≤ files.shards.length) {name : FileName}
    (hname : ∀ step ∈ saveSteps files, name ≠ step.target) : left name = directory name := by
  refine hcut.frame fun step hstep heq => ?_
  have htarget : ∃ step ∈ saveSteps files, name = step.target := by
    refine mem_saveSteps_target.mpr ((mem_saveSteps_target.mp ⟨step, hstep, heq⟩).imp_right ?_)
    rintro ⟨memory, hmemory, hsame⟩
    exact ⟨memory, publishedNames_mono hshards hmemory, hsame⟩
  obtain ⟨other, hother, hsame⟩ := htarget
  exact hname other hother hsame

end

/-! ### What a failed call leaves in memory -/

def Event.fails : Event → Bool
  | .saveFails _ | .resetFails => true
  | _ => false

/-- What the call changes before it fails is as it was. -/
def UntouchedBy (store : LearningStore) : Event → Prop
  | .saveFails (.forget entries) =>
    ∀ record ∈ store.state.temporary, ∀ entry ∈ entries, ¬SameText record.entry entry
  | .resetFails => store.state.persisted = [] ∧ store.state.temporary = []
  | _ => True

section
variable {unicode : UnicodeTable} {store : LearningStore} (h : Indexed unicode store)
include h

theorem Indexed.forgetTemporary_eq_iff (hupdates : store.state.mode.updatesMemory = true)
    (entries : List DictionaryEntry) :
    store.forgetTemporary unicode entries = store ↔
      ∀ record ∈ store.state.temporary, ∀ entry ∈ entries, ¬SameText record.entry entry := by
  have hkept : (store.state.temporary.filter fun record => (record.entry.ruby, record.entry.word) ∉
      entries.map fun entry => (entry.ruby, entry.word)) = store.state.temporary ↔
        ∀ record ∈ store.state.temporary, ∀ entry ∈ entries, ¬SameText record.entry entry := by
    rw [List.filter_eq_self]
    simp [SameText, eq_comm]
  rw [LearningStore.forgetTemporary, if_pos hupdates, ← hkept]
  constructor
  · intro hsame
    exact congrArg (fun store => store.state.temporary) hsame
  · intro hsame
    simp only [hsame, ← h.temporaryIndex]

theorem Indexed.clear_eq_iff :
    store.clear unicode = store ↔ store.state.persisted = [] ∧ store.state.temporary = [] := by
  constructor
  · intro hsame
    exact ⟨(congrArg (fun store => store.state.persisted) hsame).symm,
      (congrArg (fun store => store.state.temporary) hsame).symm⟩
  · rintro ⟨hpersisted, htemporary⟩
    have hstate : ∀ state : LearningState, state.persisted = [] → state.temporary = [] →
        { state with persisted := [], temporary := [] } = state := by
      rintro ⟨_, _, _, _, _, _⟩ rfl rfl
      rfl
    have hempty : store.temporaryIndex = .empty := by
      rw [h.temporaryIndex, htemporary]
      rfl
    rw [LearningStore.clear, hstate store.state hpersisted htemporary, LearningStore.ofState,
      ← h.persistedIndex, ← hempty]

theorem Indexed.dated_store : store.Dated := by
  intro record hin
  cases List.mem_append.mp hin with
  | inl hpersisted => exact (decayRecord_settled (h.settled record hpersisted)).1
  | inr htemporary => exact h.dated record htemporary

end

section
variable {unicode : UnicodeTable} {format : FloatFormat} {world next last : World} {today : UInt16}

theorem Indexed.failed_keeps_iff (h : Indexed unicode world.store) {event : Event}
    (hfails : event.fails = true) (hstep : Step unicode format today world event next) :
    next.store = world.store.refreshDay unicode today ↔
      UntouchedBy (world.store.refreshDay unicode today) event := by
  have hlocked := h.refreshDay today
  cases hstep with
  | @saveFails call records left hrecords hcut =>
    cases call with
    | commit => exact iff_of_true rfl trivial
    | forget entries =>
      refine hlocked.forgetTemporary_eq_iff ?_ entries
      by_contra hmode
      rw [World.saving, LearningStore.beforeSave, LearningStore.forgetTemporary, if_neg hmode,
        LearningState.recordsToSave, if_pos (by simpa using hmode)] at hrecords
      exact absurd hrecords (by simp)
  | resetFails hlisting hcut => exact hlocked.clear_eq_iff
  | _ => exact absurd hfails (by simp [Event.fails])

end

/-! ### Commits that are tried again -/

section
variable (unicode : UnicodeTable) (format : FloatFormat)

/-- Commits that fail one after the other, with the clock's readings. -/
inductive FailedCommits : World → List UInt16 → World → Prop
  | done (world : World) : FailedCommits world [] world
  | failed {world next last : World} {day : UInt16} {days : List UInt16}
      (hstep : Step unicode format day world (.saveFails .commit) next)
      (hrest : FailedCommits next days last) : FailedCommits world (day :: days) last

def shardsToSave (world : World) (day : UInt16) : Nat :=
  let store := world.saving unicode day .commit
  ((store.state.recordsToSave .commit).map fun records =>
    (store.state.filesToSave unicode format records).shards.length).getD 0

end

section
variable {unicode : UnicodeTable} {format : FloatFormat} {world next last : World} {day : UInt16}
  {days : List UInt16}

theorem shardsToSave_congr {other : World} {failed : UInt16}
    (h : other.saving unicode failed .commit = world.saving unicode failed .commit) :
    shardsToSave unicode format other failed = shardsToSave unicode format world failed := by
  rw [shardsToSave, shardsToSave, h]

/-- A failed commit leaves the store of its day. -/
theorem failedCommit_store (h : Step unicode format day world (.saveFails .commit) next) :
    next.store = world.store.refreshDay unicode day := by
  cases h with
  | saveFails hrecords hcut => rfl

/-- On later days the store is as without the failed commits. -/
theorem FailedCommits.saving (h : FailedCommits unicode format world days last)
    (hdated : world.store.Dated)
    (hdays : (world.store.state.today :: (days ++ [day])).Pairwise (· ≤ ·)) :
    last.saving unicode day .commit = world.saving unicode day .commit := by
  induction h with
  | done => rfl
  | @failed world next last failed days hstep hrest ih =>
    obtain ⟨htoday, hrestDays⟩ := List.pairwise_cons.mp hdays
    have hstore := failedCommit_store hstep
    rw [ih ?_ ?_]
    · rw [World.saving, World.saving, hstore]
      exact hdated.refreshDay_refreshDay (htoday failed List.mem_cons_self)
        ((List.pairwise_cons.mp hrestDays).1 day (by simp))
    · rw [hstore]
      exact hdated.refreshDay failed
    · rw [hstore, (refreshDay_state world.store failed).1]
      exact hrestDays

/-- The failed commits have changed nothing that the files of one with as many shards do not
change again. -/
theorem FailedCommits.frame (h : FailedCommits unicode format world days last)
    (hdated : world.store.Dated) (hdays : (world.store.state.today :: days).Pairwise (· ≤ ·))
    {files : EncodedMemory}
    (hshards : ∀ failed ∈ days, shardsToSave unicode format world failed ≤ files.shards.length)
    {name : FileName} (hname : ∀ step ∈ saveSteps files, name ≠ step.target) :
    last.directory name = world.directory name := by
  induction h with
  | done => rfl
  | @failed world next last failed days hstep hrest ih =>
    obtain ⟨htoday, hrestDays⟩ := List.pairwise_cons.mp hdays
    have hstore := failedCommit_store hstep
    rw [ih ?_ ?_ ?_]
    · have hbound := hshards failed List.mem_cons_self
      cases hstep with
      | saveFails hrecords hcut =>
        rw [shardsToSave, hrecords] at hbound
        exact cut_saveSteps_frame hcut hbound hname
    · rw [hstore]
      exact hdated.refreshDay failed
    · rw [hstore, (refreshDay_state world.store failed).1]
      exact hrestDays
    · intro other hother
      have hsame : next.saving unicode other .commit = world.saving unicode other .commit := by
        rw [World.saving, World.saving, hstore]
        exact hdated.refreshDay_refreshDay (htoday failed List.mem_cons_self)
          ((List.pairwise_cons.mp hrestDays).1 other hother)
      rw [shardsToSave_congr hsame]
      exact hshards other (List.mem_cons_of_mem _ hother)

theorem shards_pos (records : List LearningRecord) (characterIds : CharacterIdMap) :
    0 < (encodeFiles unicode format records characterIds).shards.length := by
  obtain ⟨paths, -, -, -, hblocks⟩ := recordBlocks_eq unicode records characterIds
  rw [encodeFiles, List.length_map, hblocks, Packing.chunks, Packing.takeChunks_length]
  exact Nat.div_pos (by simp [shardSize]) (by decide)

theorem FailedCommits.eq_nil (h : FailedCommits unicode format world days last)
    (hshards : ∀ failed ∈ days, shardsToSave unicode format world failed ≤ 0) :
    days = [] ∧ last = world := by
  cases h with
  | done => exact ⟨rfl, rfl⟩
  | failed hstep hrest =>
    have hzero := hshards _ List.mem_cons_self
    cases hstep with
    | saveFails hrecords hcut =>
      rw [shardsToSave, hrecords] at hzero
      exact absurd (Nat.lt_of_lt_of_le (shards_pos _ _) hzero) (Nat.lt_irrefl 0)

/-- In every history: a failed commit leaves the memory as it was, a failed forget and a failed
reset exactly if they had nothing to drop from it; and a commit after failed ones, on a clock that
does not go back, ends like the commit alone, in memory always and on disk if no failed one had more
shards. -/
theorem failed_calls {characterIds : CharacterIdMap}
    (h : Reached unicode format characterIds (fun _ _ _ => True) world) :
    (∀ today event next, event.fails = true → Step unicode format today world event next →
      (next.store = world.store.refreshDay unicode today ↔
        UntouchedBy (world.store.refreshDay unicode today) event)) ∧
    ∀ days last day next, FailedCommits unicode format world days last →
      (world.store.state.today :: (days ++ [day])).Pairwise (· ≤ ·) →
      Step unicode format day last (.save .commit) next →
      (∃ directory, Step unicode format day world (.save .commit) ⟨next.store, directory⟩) ∧
      ((∀ failed ∈ days, shardsToSave unicode format world failed ≤
        shardsToSave unicode format world day) →
        Step unicode format day world (.save .commit) next) := by
  have hindexed := h.indexed
  refine ⟨fun today event next hfails hstep => hindexed.failed_keeps_iff hfails hstep, ?_⟩
  intro days last day next hruns hdays hstep
  have hsaving := hruns.saving hindexed.dated_store hdays
  cases hstep with
  | saveNothing hnone =>
    rw [hsaving] at hnone
    have halone : Step unicode format day world (.save .commit)
        { world with store := world.saving unicode day .commit } := .saveNothing world hnone
    constructor
    · rw [hsaving]
      exact ⟨_, halone⟩
    · intro hshards
      have hzero : shardsToSave unicode format world day = 0 := by rw [shardsToSave, hnone]; rfl
      rw [hzero] at hshards
      obtain ⟨-, rfl⟩ := hruns.eq_nil hshards
      exact halone
  | @save _ records _ hrecords hrun =>
    rw [hsaving] at hrecords hrun ⊢
    constructor
    · obtain ⟨directory, halone, -⟩ := runAll_saveSteps ((world.saving unicode day
        .commit).state.filesToSave unicode format records) world.directory
      exact ⟨directory, .save world hrecords halone⟩
    · intro hshards
      refine .save world hrecords ((runAll_saveSteps_congr fun name hname => ?_).symm.trans hrun)
      have hbound : shardsToSave unicode format world day =
          ((world.saving unicode day .commit).state.filesToSave unicode format
            records).shards.length := by
        rw [shardsToSave, hrecords]
        rfl
      rw [hbound] at hshards
      exact hruns.frame hindexed.dated_store
        (hdays.sublist ((List.sublist_append_left days [day]).cons_cons _)) hshards hname

end

theorem kana_saving {call : SaveCall} : World.saving .kana ⟨kanaStore, fun _ => none⟩ 0 call =
    kanaStore.beforeSave .kana call := by
  rw [World.saving, refreshDay_self (by rw [learnedState_kana]; rfl)]

theorem kana_learned : Reached .kana sampleFormat (learnedState []).characterIds (fun _ _ _ => True)
    ⟨kanaStore, fun _ => none⟩ :=
  opened_reached.step trivial (.learn _ (isWord16_kana ['ア']) : Step .kana sampleFormat 0 _ _ _)

/-- A commit that fails at its first file, and the one after it. -/
theorem failed_calls_kana : ∃ last next : World,
    Step .kana sampleFormat 0 ⟨kanaStore, fun _ => none⟩ (.saveFails .commit) last ∧
      last.store = kanaStore.refreshDay .kana 0 ∧
      Step .kana sampleFormat 0 last (.save .commit) next ∧
      Step .kana sampleFormat 0 ⟨kanaStore, fun _ => none⟩ (.save .commit) next := by
  obtain ⟨hkeeps, hretried⟩ := failed_calls kana_learned
  have hsaving := @kana_saving .commit
  have hrecords : (World.saving .kana ⟨kanaStore, fun _ => none⟩ 0
      .commit).state.recordsToSave .commit = some [reading] := by
    rw [hsaving, LearningStore.beforeSave, learnedState_kana]
    rfl
  have hfails : Step .kana sampleFormat 0 ⟨kanaStore, fun _ => none⟩ (.saveFails .commit) _ :=
    .saveFails _ hrecords (.stop _ _)
  obtain ⟨directory, hrun, -⟩ := runAll_saveSteps ((World.saving .kana ⟨kanaStore, fun _ => none⟩ 0
    .commit).state.filesToSave .kana sampleFormat [reading]) fun _ => none
  have hagain : World.saving .kana
      ⟨World.saving .kana ⟨kanaStore, fun _ => none⟩ 0 .commit, fun _ => none⟩ 0 .commit =
        World.saving .kana ⟨kanaStore, fun _ => none⟩ 0 .commit := by
    rw [hsaving]
    exact hsaving
  have hcommit : Step .kana sampleFormat 0
      ⟨World.saving .kana ⟨kanaStore, fun _ => none⟩ 0 .commit, fun _ => none⟩ (.save .commit) _ :=
    .save _ (hagain.symm ▸ hrecords) (hagain.symm ▸ hrun)
  refine ⟨_, _, hfails, (hkeeps 0 _ _ rfl hfails).mpr trivial, hcommit, ?_⟩
  have hdays : (kanaStore.state.today :: ([0] ++ [0])).Pairwise (· ≤ ·) := by
    rw [learnedState_kana]
    decide
  refine (hretried [0] _ 0 _ (.failed hfails (.done _)) hdays hcommit).2 ?_
  intro failed hin
  rw [List.mem_singleton.mp hin]

/-- A forget that fails at its first file has dropped the word already. -/
theorem failed_forget_drops : ∃ next : World,
    Reached .kana sampleFormat (learnedState []).characterIds (fun _ _ _ => True)
      ⟨kanaStore, fun _ => none⟩ ∧
    Step .kana sampleFormat 0 ⟨kanaStore, fun _ => none⟩
      (.saveFails (.forget [kanaEntry ['ア']])) next ∧
    (kanaStore.refreshDay .kana 0).state.temporary = [reading] ∧
    next.store.state.temporary = [] := by
  have hsaving := @kana_saving (.forget [kanaEntry ['ア']])
  have hmode : kanaStore.state.mode.updatesMemory = true := by rw [learnedState_kana]; rfl
  obtain ⟨records, hrecords⟩ : ∃ records, (World.saving .kana ⟨kanaStore, fun _ => none⟩ 0
      (.forget [kanaEntry ['ア']])).state.recordsToSave (.forget [kanaEntry ['ア']]) =
        some records := by
    rw [hsaving]
    exact ⟨_, recordsToSave_forget hmode _⟩
  refine ⟨_, kana_learned, .saveFails _ hrecords (.stop _ _), ?_, ?_⟩
  · rw [refreshDay_self (by rw [learnedState_kana]; rfl), learnedState_kana]
    rfl
  · rw [hsaving, LearningStore.beforeSave, LearningStore.forgetTemporary, if_pos hmode,
      learnedState_kana]
    decide +kernel

end BeanKey.Learning
