import BeanKey.Learning.Counted
import BeanKey.Library.Stable

/-! What is still found after a forget: the forgotten entries are not, joins of their clauses can
be. -/
namespace BeanKey.Learning
open BeanKey.Lattice Crash
open BeanKey.Dictionary (CharacterIdMap FloatFormat)

/-! ### What lookups find -/

def SameText (first second : DictionaryEntry) : Prop :=
  first.ruby = second.ruby ∧ first.word = second.word

instance (first second : DictionaryEntry) : Decidable (SameText first second) :=
  inferInstanceAs (Decidable (_ ∧ _))

def Forgets (unicode : UnicodeTable) (store : LearningStore) (targets : List DictionaryEntry) :
    Prop :=
  ∀ kind ruby maximumLength found, store.lookup unicode kind ruby maximumLength = some found →
    ∀ answer ∈ found, ∀ target ∈ targets, ¬SameText answer target

section
variable {unicode : UnicodeTable} {characterIds : CharacterIdMap}

theorem exists_found {records : List LearningRecord} {ruby : Text} {positions : List Nat}
    {strict : Bool}
    (h : positions = scanReadings unicode records .exact strict (graphemes unicode ruby)) :
    ∃ found, positions.mapM (fun index => records[index]?) = some found ∧
      ∀ record ∈ records, record.entry.ruby = ruby → record ∈ found := by
  have hscan : ∀ index, index ∈ positions ↔ ∃ record, records[index]? = some record ∧
      graphemes unicode record.entry.ruby = graphemes unicode ruby := by
    intro index
    rw [h, scanReadings, mem_scan]
    simp [MatchKind.finds]
  obtain ⟨found, hfound⟩ :=
    Loop.exists_mapM (fun index => records[index]?) positions fun index hin => by
      obtain ⟨record, hrecord, -⟩ := (hscan index).mp hin
      rw [hrecord]
      rfl
  refine ⟨found, hfound, fun record hin hruby => ?_⟩
  obtain ⟨index, hindex⟩ := List.mem_iff_getElem?.mp hin
  exact (Loop.mem_mapM hfound).mpr
    ⟨index, (hscan index).mpr ⟨record, hindex, by rw [hruby]⟩, hindex⟩

theorem Indexed.lookup_record {store : LearningStore} (h : Indexed unicode store)
    (huses : store.state.mode.usesMemory = true) {record : LearningRecord}
    (hin : record ∈ store.state.persisted ++ store.state.temporary) :
    ∃ found, store.lookup unicode .exact record.entry.ruby
        (graphemes unicode record.entry.ruby).length = some found ∧
      LearningStore.learnedEntry unicode record ∈ found := by
  have hpersistedReadings := h.persisted.readingsEncode
  have htemporaryReadings := h.temporary.readingsEncode
  have hruby : record.entry.ruby ≠ [] := by
    cases List.mem_append.mp hin with
    | inl hin => exact (hpersistedReadings record hin).1
    | inr hin => exact (htemporaryReadings record hin).1
  have hpersisted := ((lookups_are_scans hpersistedReadings .exact).2 record.entry.ruby hruby
    (graphemes unicode record.entry.ruby).length).2 (by simp)
  have htemporary := positions_eq_scan htemporaryReadings hruby
    (graphemes unicode record.entry.ruby).length fun ids _ =>
      h.indexes.lookup_eq_scan ids .exact
  rw [← h.persistedIndex, List.take_length] at hpersisted
  rw [List.take_length] at htemporary
  obtain ⟨persisted, hpersistedFound, hpersistedIn⟩ := exists_found hpersisted
  obtain ⟨temporary, htemporaryFound, htemporaryIn⟩ := exists_found htemporary
  refine ⟨_, by rw [LearningStore.lookup, if_pos huses, hpersistedFound, htemporaryFound]; rfl, ?_⟩
  refine List.mem_map_of_mem (List.mem_append.mpr ?_)
  cases List.mem_append.mp hin with
  | inl hin => exact .inl (hpersistedIn record hin rfl)
  | inr hin => exact .inr (htemporaryIn record hin rfl)

theorem mem_lookup {store : LearningStore} {kind : MatchKind} {ruby : Text} {maximumLength : Nat}
    {found : List DictionaryEntry} (h : store.lookup unicode kind ruby maximumLength = some found)
    {answer : DictionaryEntry} (hin : answer ∈ found) :
    ∃ record ∈ store.state.persisted ++ store.state.temporary,
      answer = LearningStore.learnedEntry unicode record := by
  rw [LearningStore.lookup] at h
  split at h
  · obtain ⟨persisted, hpersisted, hrest⟩ := Option.bind_eq_some_iff.mp h
    obtain ⟨temporary, htemporary, hfound⟩ := Option.bind_eq_some_iff.mp hrest
    obtain rfl := Option.some.inj hfound
    obtain ⟨record, hrecord, rfl⟩ := List.mem_map.mp hin
    refine ⟨record, List.mem_append.mpr ?_, rfl⟩
    refine (List.mem_append.mp hrecord).imp (fun hrecord => ?_) fun hrecord => ?_
    · obtain ⟨index, -, hindex⟩ := (Loop.mem_mapM hpersisted).mp hrecord
      exact List.mem_of_getElem? hindex
    · obtain ⟨index, -, hindex⟩ := (Loop.mem_mapM htemporary).mp hrecord
      exact List.mem_of_getElem? hindex
  · obtain rfl := Option.some.inj h
    exact absurd hin List.not_mem_nil

theorem Indexed.forgets_iff {store : LearningStore} (h : Indexed unicode store)
    (huses : store.state.mode.usesMemory = true) (targets : List DictionaryEntry) :
    Forgets unicode store targets ↔
      ∀ record ∈ store.state.persisted ++ store.state.temporary, ∀ target ∈ targets,
        ¬SameText record.entry target := by
  constructor
  · intro hforgets record hin target htarget hsame
    obtain ⟨found, hfound, hanswer⟩ := h.lookup_record huses hin
    exact hforgets _ _ _ found hfound _ hanswer target htarget hsame
  · intro hnone kind ruby maximumLength found hfound answer hanswer target htarget hsame
    obtain ⟨record, hin, rfl⟩ := mem_lookup hfound hanswer
    exact hnone record hin target htarget hsame

end

/-! ### What a forget leaves -/

def clauseRuns (entries : List DictionaryEntry) : List DictionaryEntry :=
  (learnedClauseRanges entries).tails.flatMap fun
    | [] => []
    | first :: rest => (first :: rest).filterMap fun last =>
      joinEntries ((entries.take last.2).drop first.1)

/-- A pending record of the target that is no record of the entries themselves. -/
def KeptPending (store : LearningStore) (entries : List DictionaryEntry)
    (target : DictionaryEntry) :
    Prop :=
  ∃ record ∈ store.state.temporary, SameText record.entry target ∧
    ∀ entry ∈ entries, ¬SameText record.entry entry

/-- A persisted record of the target with a word that no entry has, among as many of the last used
ones as the store keeps. -/
def KeptPersisted (store : LearningStore) (entries : List DictionaryEntry)
    (target : DictionaryEntry) : Prop :=
  ∃ before record after,
    (store.state.persisted.filter fun record =>
      record.entry.word ∉ entries.map DictionaryEntry.word) = before ++ record :: after ∧
    SameText record.entry target ∧
    (before.countP fun other => record.lastUsedDay.toNat ≤ other.lastUsedDay.toNat) +
      (after.countP fun other => record.lastUsedDay.toNat < other.lastUsedDay.toNat) <
        store.state.maxCount

/-- What a save keeps of records that are decayed already. -/
theorem mem_savedRecords_iff {state : LearningState} {records : List LearningRecord}
    (h : ∀ record ∈ records, decayRecord state.today record = some record)
    {record : LearningRecord} :
    record ∈ state.savedRecords records ↔ ∃ before after, records = before ++ record :: after ∧
      (before.countP fun other => record.lastUsedDay.toNat ≤ other.lastUsedDay.toNat) +
        (after.countP fun other => record.lastUsedDay.toNat < other.lastUsedDay.toNat) <
          state.maxCount := by
  have hcompare : (fun first second : LearningRecord =>
      decide (second.lastUsedDay ≤ first.lastUsedDay)) = fun first second =>
        decide (second.lastUsedDay.toNat ≤ first.lastUsedDay.toNat) := by
    funext first second
    exact decide_eq_decide.mpr UInt16.le_iff_toNat_le
  rw [LearningState.savedRecords, decay_settled h, hcompare]
  exact Stable.mem_take_sortFalling

section
variable {unicode : UnicodeTable} {store : LearningStore}

theorem recordsToSave_forget (hupdates : store.state.mode.updatesMemory = true)
    (entries : List DictionaryEntry) :
    (store.forgetTemporary unicode entries).state.recordsToSave (.forget entries) =
      some (store.state.persisted.filter fun record =>
        record.entry.word ∉ entries.map DictionaryEntry.word) := by
  rw [LearningStore.forgetTemporary, if_pos hupdates, LearningState.recordsToSave,
    if_neg (by simpa using hupdates)]

theorem Indexed.mem_forgotten (h : Indexed unicode store)
    (hupdates : store.state.mode.updatesMemory = true) {entries : List DictionaryEntry}
    {records : List LearningRecord}
    (hrecords : (store.forgetTemporary unicode entries).state.recordsToSave (.forget entries) =
      some records) (target : DictionaryEntry) :
    let after := (store.forgetTemporary unicode entries).publish unicode records
    ((∃ record ∈ after.state.temporary, SameText record.entry target) ↔
        KeptPending store entries target) ∧
      ((∃ record ∈ after.state.persisted, SameText record.entry target) ↔
        KeptPersisted store entries target) := by
  rw [recordsToSave_forget hupdates] at hrecords
  obtain rfl := Option.some.inj hrecords
  rw [LearningStore.forgetTemporary, if_pos hupdates]
  constructor
  · have hown : ∀ record : LearningRecord, (record.entry.ruby, record.entry.word) ∉
        (entries.map fun entry => (entry.ruby, entry.word)) ↔
          ∀ entry ∈ entries, ¬SameText record.entry entry := by
      intro record
      simp [SameText, eq_comm]
    simp only [LearningStore.publish, List.mem_filter, decide_eq_true_eq, hown, KeptPending]
    exact exists_congr fun record => and_right_comm.trans and_assoc
  · have hsettled : ∀ record ∈ store.state.persisted.filter fun record =>
        record.entry.word ∉ entries.map DictionaryEntry.word,
          decayRecord store.state.today record = some record :=
      fun record hin => h.settled record (List.mem_of_mem_filter hin)
    refine (exists_congr fun record => and_congr_left' (mem_savedRecords_iff hsettled)).trans ?_
    constructor
    · rintro ⟨record, ⟨before, after, hsplit, hrank⟩, hsame⟩
      exact ⟨before, record, after, hsplit, hsame, hrank⟩
    · rintro ⟨before, record, after, hsplit, hsame, hrank⟩
      exact ⟨record, ⟨before, after, hsplit, hrank⟩, hsame⟩

theorem not_kept {entries : List DictionaryEntry} {target : DictionaryEntry}
    (hin : target ∈ entries) :
    ¬KeptPending store entries target ∧ ¬KeptPersisted store entries target := by
  constructor
  · rintro ⟨record, -, hsame, hnone⟩
    exact hnone target hin hsame
  · rintro ⟨before, record, after, hsplit, hsame, -⟩
    have hkept : record ∈ store.state.persisted.filter fun record =>
        record.entry.word ∉ entries.map DictionaryEntry.word := by
      rw [hsplit]
      exact List.mem_append_right _ List.mem_cons_self
    have hword := of_decide_eq_true (List.mem_filter.mp hkept).2
    rw [hsame.2] at hword
    exact hword (List.mem_map_of_mem hin)

theorem Indexed.pending_learn (h : Indexed unicode store)
    (hupdates : store.state.mode.updatesMemory = true) {taught : List DictionaryEntry}
    {target : DictionaryEntry} (hin : target ∈ taught)
    (hvalid : validLearningEntry unicode target store.state.characterIds = true) :
    ∃ record ∈ (store.learn unicode taught).state.temporary, SameText record.entry target := by
  have hself : sameEntry target target = true := sameEntry_iff.mpr ⟨rfl, rfl, rfl, rfl⟩
  have htimes : 0 < timesTaught unicode store.state.characterIds taught target :=
    List.countP_pos_iff.mpr ⟨target, hin, by rw [hvalid, hself]; rfl⟩
  have hcount := h.useCount_foldl taught target
  rw [if_neg htimes.ne', LearningStore.useCount] at hcount
  rw [LearningStore.learn, if_pos hupdates]
  cases hfound : (taught.foldl (LearningStore.memorize unicode) store).state.temporary.find?
      fun record => sameEntry record.entry target with
  | none =>
    rw [hfound] at hcount
    simp at hcount
    omega
  | some record =>
    have hsame := List.find?_some hfound
    obtain ⟨hruby, hword, -⟩ := sameEntry_iff.mp hsame
    exact ⟨record, List.mem_of_find?_eq_some hfound, hruby, hword⟩

/-- The pairs of clauses that are taught are runs. -/
theorem learnedClauseEntries_runs {entries : List DictionaryEntry} {joined : DictionaryEntry}
    (h : joined ∈ learnedClauseEntriesAfter entries 0) : joined ∈ clauseRuns entries := by
  obtain ⟨⟨first, second⟩, hpair, hjoined⟩ := List.mem_filterMap.mp h
  have hzip := List.mem_of_mem_filter hpair
  rw [clauseRuns]
  generalize learnedClauseRanges entries = ranges at hzip
  induction ranges with
  | nil => exact absurd hzip List.not_mem_nil
  | cons head rest ih =>
    rw [List.tails_cons, List.flatMap_cons]
    cases rest with
    | nil => exact absurd hzip List.not_mem_nil
    | cons next rest =>
      cases List.mem_cons.mp hzip with
      | inl heq =>
        obtain ⟨rfl, rfl⟩ := Prod.mk.inj heq
        refine List.mem_append_left _ (List.mem_filterMap.mpr ⟨second, ?_, hjoined⟩)
        exact List.mem_cons_of_mem _ List.mem_cons_self
      | inr hzip => exact List.mem_append_right _ (ih hzip)

theorem usesMemory_of_updatesMemory {mode : LearningMode} (h : mode.updatesMemory = true) :
    mode.usesMemory = true := by
  rw [LearningMode.updatesMemory, decide_eq_true_eq] at h
  rw [h]
  rfl

section
variable {format : FloatFormat} {world learned forgotten : World} {day : UInt16}
  {entries : List DictionaryEntry}

theorem learned_updates (hupdates : world.store.state.mode.updatesMemory = true)
    (hlearn : Step unicode format day world (.learn entries) learned) :
    learned.store.state.mode.updatesMemory = true ∧ learned.store.state.today = day := by
  cases hlearn with
  | learn hids =>
    obtain ⟨temporary, hstate⟩ :=
      @learn_keeps unicode (world.store.refreshDay unicode day) (learnedEntries entries)
    obtain ⟨htoday, hmode, -⟩ := @refreshDay_state unicode world.store day
    dsimp only
    rw [hstate]
    exact ⟨(congrArg LearningMode.updatesMemory hmode).trans hupdates, htoday⟩

theorem Indexed.forgets_saved (h : Indexed unicode world.store)
    (hupdates : world.store.state.mode.updatesMemory = true)
    (hforget : Step unicode format day world (.save (.forget entries)) forgotten)
    (joins : List DictionaryEntry) :
    let held := world.store.refreshDay unicode day
    Forgets unicode forgotten.store (entries ++ joins) ↔
      ∀ target ∈ joins, ¬KeptPending held entries target ∧ ¬KeptPersisted held entries target := by
  intro held
  have hheld : Indexed unicode held := h.refreshDay day
  have hforgotten : Indexed unicode forgotten.store := h.step hforget
  have hmode : held.state.mode.updatesMemory = true := by
    rw [(refreshDay_state world.store day).2.1, hupdates]
  cases hforget with
  | saveNothing hnone =>
    have hsome := @recordsToSave_forget unicode held hmode entries
    exact absurd (hsome.symm.trans hnone) (by simp)
  | save hrecords hrun =>
    have hmem := hheld.mem_forgotten hmode hrecords
    obtain ⟨pending, hbefore⟩ := @beforeSave_keeps unicode held (.forget entries)
    have huses : (held.beforeSave unicode (.forget entries)).state.mode.usesMemory = true := by
      rw [hbefore]
      exact usesMemory_of_updatesMemory hmode
    rw [hforgotten.forgets_iff huses]
    constructor
    · intro hnone target htarget
      constructor
      · intro hkept
        obtain ⟨record, hin, hsame⟩ := (hmem target).1.mpr hkept
        exact hnone record (List.mem_append_right _ hin) target
          (List.mem_append_right _ htarget) hsame
      · intro hkept
        obtain ⟨record, hin, hsame⟩ := (hmem target).2.mpr hkept
        exact hnone record (List.mem_append_left _ hin) target
          (List.mem_append_right _ htarget) hsame
    · intro hleft record hin target htarget hsame
      have hnone : ¬KeptPending held entries target ∧ ¬KeptPersisted held entries target := by
        cases List.mem_append.mp htarget with
        | inl hown => exact not_kept hown
        | inr hjoin => exact hleft target hjoin
      cases List.mem_append.mp hin with
      | inl hpersisted => exact hnone.2 ((hmem target).2.mp ⟨record, hpersisted, hsame⟩)
      | inr htemporary => exact hnone.1 ((hmem target).1.mp ⟨record, htemporary, hsame⟩)

/-- What is taught as a join is kept on the same day. -/
theorem Indexed.kept_join (h : Indexed unicode world.store)
    (hupdates : world.store.state.mode.updatesMemory = true)
    (hlearn : Step unicode format day world (.learn entries) learned) {target : DictionaryEntry}
    (htaught : target ∈ learnedEntries entries)
    (hvalid : validLearningEntry unicode target learned.store.state.characterIds = true)
    (hother : ∀ entry ∈ entries, ¬SameText target entry) :
    target ∈ clauseRuns entries ++ joinWhole entries ∧
    KeptPending learned.store entries target := by
  have hrefreshed := h.refreshDay day
  have hmode : (world.store.refreshDay unicode day).state.mode.updatesMemory = true := by
    rw [(refreshDay_state world.store day).2.1, hupdates]
  cases hlearn with
  | learn hids =>
    rw [learn_characterIds] at hvalid
    obtain ⟨record, hin, hruby, hword⟩ := hrefreshed.pending_learn hmode htaught hvalid
    refine ⟨?_, record, hin, ⟨hruby, hword⟩, fun entry hentry hown => hother entry hentry ?_⟩
    · cases List.mem_append.mp htaught with
      | inr hwhole => exact List.mem_append_right _ hwhole
      | inl htaught =>
        cases List.mem_append.mp htaught with
        | inl hsingle => exact absurd ⟨rfl, rfl⟩ (hother target (List.mem_of_mem_filter hsingle))
        | inr hpair => exact List.mem_append_left _ (learnedClauseEntries_runs hpair)
    · exact ⟨hruby.symm.trans hown.1, hword.symm.trans hown.2⟩

end

/-- After learning and forgetting, in every history, nothing of the candidate is found exactly if no
joined record is left; on the same day, what was taught as a join is. -/
theorem forget_undoes_learn {format : FloatFormat} {characterIds : CharacterIdMap}
    {world learned forgotten : World} {learnDay forgetDay : UInt16} {entries : List DictionaryEntry}
    (h : Reached unicode format characterIds (fun _ _ _ => True) world)
    (hupdates : world.store.state.mode.updatesMemory = true)
    (hlearn : Step unicode format learnDay world (.learn entries) learned)
    (hforget : Step unicode format forgetDay learned (.save (.forget entries)) forgotten) :
    let held := learned.store.refreshDay unicode forgetDay
    let joins := clauseRuns entries ++ joinWhole entries
    (Forgets unicode forgotten.store (entries ++ joins) ↔
      ∀ target ∈ joins, ¬KeptPending held entries target ∧ ¬KeptPersisted held entries target) ∧
    (learnDay = forgetDay → ∀ target ∈ learnedEntries entries,
      validLearningEntry unicode target held.state.characterIds = true →
      (∀ entry ∈ entries, ¬SameText target entry) → target ∈ joins ∧
        KeptPending held entries target) := by
  intro held joins
  obtain ⟨hmode, htoday⟩ := learned_updates hupdates hlearn
  refine ⟨(h.indexed.step hlearn).forgets_saved hmode hforget joins, ?_⟩
  rintro rfl target htaught hvalid hother
  have hsame : held = learned.store := refreshDay_self htoday
  rw [hsame] at hvalid ⊢
  exact h.indexed.kept_join hupdates hlearn htaught hvalid hother

theorem exists_forget_step {format : FloatFormat} {world : World}
    (hupdates : world.store.state.mode.updatesMemory = true) (day : UInt16)
    (entries : List DictionaryEntry) :
    ∃ forgotten, Step unicode format day world (.save (.forget entries)) forgotten := by
  have hmode : (world.store.refreshDay unicode day).state.mode.updatesMemory = true := by
    rw [(refreshDay_state world.store day).2.1, hupdates]
  have hrecords := @recordsToSave_forget unicode (world.store.refreshDay unicode day) hmode entries
  obtain ⟨directory, hrun, -⟩ := runAll_saveSteps ((world.saving unicode day
    (.forget entries)).state.filesToSave unicode format _) world.directory
  exact ⟨_, .save world hrecords hrun⟩

end

def pairStore : LearningStore :=
  ((LearningStore.ofState .kana (learnedState [])).refreshDay .kana 0).learn .kana
    (learnedEntries clausePair)

theorem isWord16_clausePair : ∀ entry ∈ clausePair, IsWord16 entry := by
  intro entry hin
  cases List.mem_cons.mp hin with
  | inl heq => exact isWord16_kana ['亜'] entry (heq ▸ List.mem_singleton_self _)
  | inr hin => exact isWord16_kana ['胃'] entry hin

theorem pairStore_step : Step .kana sampleFormat 0 ⟨.ofState .kana (learnedState []), fun _ => none⟩
    (.learn clausePair) ⟨pairStore, fun _ => none⟩ :=
  .learn _ isWord16_clausePair

/-- One of the two clauses is learned once more, alone, and forgotten. -/
theorem forget_undoes_learn_clause : ∃ learned forgotten,
    Step .kana sampleFormat 0 ⟨pairStore, fun _ => none⟩ (.learn [kanaEntry ['亜']]) learned ∧
    Step .kana sampleFormat 0 learned (.save (.forget [kanaEntry ['亜']])) forgotten ∧
    Forgets .kana forgotten.store ([kanaEntry ['亜']] ++
      (clauseRuns [kanaEntry ['亜']] ++ joinWhole [kanaEntry ['亜']])) := by
  have hlearn : Step .kana sampleFormat 0 ⟨pairStore, fun _ => none⟩ (.learn [kanaEntry ['亜']]) _ :=
    .learn _ (isWord16_kana ['亜'])
  have hmode : pairStore.state.mode.updatesMemory = true := (learned_updates rfl pairStore_step).1
  obtain ⟨forgotten, hforget⟩ := @exists_forget_step .kana sampleFormat _
    (learned_updates hmode hlearn).1 0 [kanaEntry ['亜']]
  refine ⟨_, forgotten, hlearn, hforget, ?_⟩
  refine (forget_undoes_learn (.step opened_reached trivial pairStore_step) hmode hlearn
    hforget).1.mpr fun target hin => ?_
  have htarget : target = kanaEntry ['亜'] := by
    have hjoins : clauseRuns [kanaEntry ['亜']] ++ joinWhole [kanaEntry ['亜']] =
        [kanaEntry ['亜']] := by decide +kernel
    rw [hjoins] at hin
    exact List.mem_singleton.mp hin
  exact not_kept (htarget ▸ List.mem_singleton_self _)

/-- The text of two clauses is found after the forget. -/
theorem clause_pair_found_again : ∃ learned forgotten : World,
    Reached .kana sampleFormat (learnedState []).characterIds (fun _ _ _ => True)
      ⟨.ofState .kana (learnedState []), fun _ => none⟩ ∧
    Step .kana sampleFormat 0 ⟨.ofState .kana (learnedState []), fun _ => none⟩ (.learn clausePair)
      learned ∧
    Step .kana sampleFormat 0 learned (.save (.forget clausePair)) forgotten ∧
    ¬Forgets .kana forgotten.store
      (clausePair ++ (clauseRuns clausePair ++ joinWhole clausePair)) := by
  have hlearn := pairStore_step
  obtain ⟨hmode, htoday⟩ := learned_updates rfl hlearn
  obtain ⟨forgotten, hforget⟩ := @exists_forget_step .kana sampleFormat _ hmode 0 clausePair
  refine ⟨_, forgotten, opened_reached, hlearn, hforget, fun hforgets => ?_⟩
  have hindexed := opened_reached.indexed
  have hnone := ((hindexed.step hlearn).forgets_saved hmode hforget _).mp hforgets
  obtain ⟨hjoin, hkept⟩ := hindexed.kept_join rfl hlearn
    (by decide +kernel : joinedPair ∈ learnedEntries clausePair)
    (by rw [pairStore, learn_characterIds, refreshDay_characterIds]; decide +kernel)
    (by decide +kernel)
  have hleft := (hnone joinedPair hjoin).1
  rw [refreshDay_self htoday] at hleft
  exact hleft hkept

end BeanKey.Learning
