import BeanKey.Learning.Essence
import BeanKey.Learning.History

/-! The trip through the files: what a commit leaves in the directory, and what an open makes
of it. -/
namespace BeanKey.Learning
open BeanKey.Lattice Crash
open BeanKey.Dictionary (CharacterIdMap FloatFormat)

/-! ### The blocks of a save -/

/-- Parts by key are together the whole. -/
theorem flatMap_filter_perm {α κ : Type} [DecidableEq κ] (key : α → Option κ) {keys : List κ}
    (hkeys : keys.Nodup) {values : List α} (h : ∀ value ∈ values, ∃ k ∈ keys, key value = some k) :
    (keys.flatMap fun k => values.filter fun value => key value = some k).Perm values := by
  induction keys generalizing values with
  | nil =>
    have hnil : values = [] := List.eq_nil_iff_forall_not_mem.mpr fun value hin => by
      obtain ⟨k, hk, -⟩ := h value hin
      exact absurd hk List.not_mem_nil
    rw [hnil]
    exact List.Perm.refl _
  | cons k rest ih =>
    have hnew := List.nodup_cons.mp hkeys
    have hrest : (rest.flatMap fun other => values.filter fun value => key value = some other).Perm
        (values.filter fun value => !decide (key value = some k)) := by
      refine List.Perm.trans ?_ (ih hnew.2 ?_)
      · refine List.Perm.of_eq (List.flatMap_congr fun other hother => ?_)
        rw [List.filter_filter]
        refine List.filter_congr fun value _ => ?_
        by_cases hvalue : key value = some other
        · have hne : other ≠ k := fun heq => hnew.1 (heq ▸ hother)
          simp [hvalue, hne]
        · simp [hvalue]
      · intro value hin
        obtain ⟨hvalue, hother⟩ := List.mem_filter.mp hin
        obtain ⟨other, hkey, heq⟩ := h value hvalue
        cases List.mem_cons.mp hkey with
        | inl hsame => simp [heq, hsame] at hother
        | inr hrest => exact ⟨other, hrest, heq⟩
    rw [List.flatMap_cons]
    exact (hrest.append_left _).trans (List.filter_append_perm _ values)

/-- No reading has more records than its block can count. -/
def FewRecords (records : List LearningRecord) : Prop :=
  ∀ ruby, (records.filter fun record => record.entry.ruby = ruby).length ≤ 255

section
variable {unicode : UnicodeTable} {format : FloatFormat} {characterIds : CharacterIdMap}
  {records : List LearningRecord}

theorem encode_ne_nil {ruby : Text} {ids : List UInt8} (hruby : ruby ≠ [])
    (h : characterIds.encode unicode ruby = some ids) : ids ≠ [] := by
  rintro rfl
  have hpairs := (Loop.mapM_eq_some.mp h).length_eq
  exact hruby ((graphemes_eq_nil unicode).mp (List.length_eq_zero_iff.mp hpairs))

theorem take_filter_encode (hfew : FewRecords records) (ids : List UInt8) :
    (records.filter fun record => characterIds.encode unicode record.entry.ruby = some ids).take
    255 =
      records.filter fun record => characterIds.encode unicode record.entry.ruby = some ids := by
  refine List.take_of_length_le ?_
  cases hfound : records.filter fun record =>
      characterIds.encode unicode record.entry.ruby = some ids with
  | nil => exact Nat.zero_le _
  | cons first rest =>
    have hfirst : characterIds.encode unicode first.entry.ruby = some ids := by
      have hin : first ∈ records.filter fun record =>
          characterIds.encode unicode record.entry.ruby = some ids := by
        rw [hfound]
        exact List.mem_cons_self
      simpa using (List.mem_filter.mp hin).2
    rw [← hfound]
    refine Nat.le_trans (List.Sublist.length_le ?_) (hfew first.entry.ruby)
    refine List.monotone_filter_right _ fun record hencoded => ?_
    simp only [decide_eq_true_eq] at hencoded ⊢
    exact CharacterIdMap.encode_injective hencoded hfirst

theorem recordBlocks_perm
    (hlearnable : ∀ record ∈ records, Learnable unicode characterIds record.entry)
    (hfew : FewRecords records) :
    (recordBlocks unicode records characterIds).flatten.Perm records := by
  obtain ⟨paths, hordered, -, hall, hblocks⟩ := recordBlocks_eq unicode records characterIds
  have hnodup := LevelOrder.nodup_of_shortlex (fun _ => UInt8.lt_irrefl _) hordered
  rw [hblocks]
  simp only [List.flatten_cons, List.nil_append, take_filter_encode hfew]
  refine flatMap_filter_perm (fun record : LearningRecord =>
    characterIds.encode unicode record.entry.ruby) hnodup ?_
  intro record hin
  obtain ⟨ids, hids⟩ := encode_of_valid (hlearnable record hin).valid
  exact ⟨ids, hall record hin ids (encode_ne_nil (hlearnable record hin).ruby_ne_nil hids) hids,
    hids⟩

theorem storedRecord_essence {record : LearningRecord} (h : record.entry.word ≠ []) :
    (storedRecord unicode format record).essence = record.essence := by
  rw [LearningRecord.essence, LearningRecord.essence, storedRecord]
  simp only [storedEntry, if_neg h]

/-- What a save has written is read back with the same essences. -/
theorem stored_same (hlearnable : ∀ record ∈ records, Learnable unicode characterIds record.entry)
    (hfew : FewRecords records) :
    SameRecords
      ((recordBlocks unicode records characterIds).flatten.map (storedRecord unicode format))
      records := by
  have hperm := recordBlocks_perm hlearnable hfew
  refine List.Perm.trans (List.Perm.of_eq ?_) (hperm.map _)
  rw [List.map_map]
  exact List.map_congr_left fun record hin =>
    storedRecord_essence (hlearnable record (hperm.subset hin)).word

theorem stored_valid (hlearnable : ∀ record ∈ records, Learnable unicode characterIds record.entry)
    (hfew : FewRecords records) : ((recordBlocks unicode records characterIds).flatten.map
      (storedRecord unicode format)).filter
        (fun record => validLearningEntry unicode record.entry characterIds) =
      (recordBlocks unicode records characterIds).flatten.map (storedRecord unicode format) := by
  refine List.filter_eq_self.mpr ?_
  intro record hin
  obtain ⟨saved, hsaved, rfl⟩ := List.mem_map.mp hin
  exact (hlearnable saved ((recordBlocks_perm hlearnable hfew).subset hsaved)).stored.valid

end

/-! ### A directory that matches its store -/

/-- The persisted records are those of the directory after the decay of the store's day. -/
structure Matches (unicode : UnicodeTable) (format : FloatFormat) (world : World) : Prop where
  unpaused : world.directory pauseFile = none
  reads : ∃ decoded, decodeDirectory format world.directory = .ok decoded ∧
    (∀ record ∈ decoded, NotAfter world.store.state.today record) ∧
      SameRecords world.store.state.persisted (decay (decoded.filter fun record =>
        validLearningEntry unicode record.entry world.store.state.characterIds)
          world.store.state.today)

section
variable {unicode : UnicodeTable} {format : FloatFormat} {characterIds : CharacterIdMap}
  {world next : World} {today : UInt16}

theorem Matches.of_temporary (h : Matches unicode format world) {store : LearningStore}
    {temporary : List LearningRecord}
    (hstate : store.state = { world.store.state with temporary }) :
    Matches unicode format { world with store } := by
  refine ⟨h.unpaused, ?_⟩
  simp only [hstate]
  exact h.reads

theorem refreshDay_state (store : LearningStore) (today : UInt16) :
    (store.refreshDay unicode today).state.today = today ∧
      (store.refreshDay unicode today).state.mode = store.state.mode ∧
        (store.refreshDay unicode today).state.persisted =
          if store.state.today = today then store.state.persisted
          else decay store.state.persisted today := by
  rw [LearningStore.refreshDay]
  split
  · next h => exact ⟨h, rfl, rfl⟩
  · exact ⟨rfl, rfl, rfl⟩

theorem Matches.refresh (h : Matches unicode format world)
    (hday : world.store.state.today ≤ today) :
    Matches unicode format { world with store := world.store.refreshDay unicode today } := by
  by_cases hsame : world.store.state.today = today
  · rw [refreshDay_self hsame]
    exact h
  · obtain ⟨decoded, hdecoded, hnot, hrecords⟩ := h.reads
    obtain ⟨htoday, -, hpersisted⟩ := @refreshDay_state unicode world.store today
    rw [if_neg hsame] at hpersisted
    refine ⟨h.unpaused, decoded, hdecoded, ?_, ?_⟩
    · dsimp only
      rw [htoday]
      exact fun record hin => (hnot record hin).mono hday
    · dsimp only
      rw [htoday, hpersisted, refreshDay_characterIds]
      refine (hrecords.decay today).trans ?_
      rw [decay_decay hday fun record hin => hnot record (List.mem_of_mem_filter hin)]
      exact .refl _

theorem Matches.openMemory (h : Matches unicode format world) {mode : LearningMode}
    (hmode : mode.usesMemory = true) (listing : List FileName) (maxCount : Nat) :
    ∃ persisted, SameRecords world.store.state.persisted persisted ∧
      openMemory unicode format world.directory listing mode maxCount world.store.state.characterIds
        world.store.state.today = some (world.directory, {
          characterIds := world.store.state.characterIds
          mode, maxCount
          today := world.store.state.today
          persisted
          temporary := [] }) := by
  obtain ⟨decoded, hdecoded, -, hrecords⟩ := h.reads
  refine ⟨_, hrecords, ?_⟩
  have hopen := openDirectory_of_recovered (runAll_recover_of_none h.unpaused listing) hdecoded
  rw [Learning.openMemory, if_pos hmode, hopen]
  rfl

theorem Matches.of_open {directory after : Directory} {listing : List FileName}
    {mode : LearningMode}
    {maxCount : Nat} {state : LearningState} (hmode : mode.usesMemory = true)
    (hlisting : IsListing directory listing)
    (hopen : Learning.openMemory unicode format directory listing mode maxCount characterIds today =
      some (after, state))
    (hdated : ∀ decoded, decodeDirectory format after = .ok decoded →
      ∀ record ∈ decoded, NotAfter today record) :
    Matches unicode format ⟨.ofState unicode state, after⟩ := by
  obtain ⟨-, hrecovered, decoded, hdecoded, rfl⟩ | ⟨hunused, -, -⟩ := openMemory_cases hopen
  · exact ⟨recovered_unpaused hlisting hrecovered, decoded, hdecoded, hdated decoded hdecoded,
      .refl _⟩
  · rw [hmode] at hunused
    cases hunused

theorem afterSave_state (store : LearningStore) (records : List LearningRecord) (call : SaveCall) :
    (store.afterSave unicode records call).state.persisted = store.state.savedRecords records ∧
      (store.afterSave unicode records call).state.today = store.state.today := by
  cases call <;> exact ⟨rfl, rfl⟩

theorem mem_savedRecords {state : LearningState} {records : List LearningRecord}
    {record : LearningRecord} (h : record ∈ state.savedRecords records) :
    record ∈ decay records state.today := List.mem_mergeSort.mp (List.mem_of_mem_take h)

theorem savedRecords_settled {state : LearningState} {records : List LearningRecord}
    {record : LearningRecord} (h : record ∈ state.savedRecords records) :
    NotAfter state.today record ∧ decayRecord state.today record = some record := by
  obtain ⟨before, -, hkept⟩ := List.mem_filterMap.mp (mem_savedRecords h)
  exact decayRecord_settled hkept

theorem Matches.of_save {store : LearningStore} {call : SaveCall} {records : List LearningRecord}
    {directory after : Directory}
    (hlearnable : ∀ record ∈ records, Learnable unicode store.state.characterIds record.entry)
    (hfits : (store.state.filesToSave unicode format records).Fits)
    (hfew : FewRecords (store.state.savedRecords records))
    (hrun : runAll (saveRecords unicode format store.state records) directory = some after) :
    Matches unicode format ⟨store.afterSave unicode records call, after⟩ := by
  obtain ⟨published, hpublish, hpublished⟩ := runAll_saveSteps
    (store.state.filesToSave unicode format records) directory
  rw [saveRecords, hpublish] at hrun
  obtain rfl := Option.some.inj hrun
  have hsaved : ∀ record ∈ store.state.savedRecords records,
      Learnable unicode store.state.characterIds record.entry := by
    intro record hin
    obtain ⟨before, hbefore, hentry, -⟩ := mem_decay (mem_savedRecords hin)
    rw [hentry]
    exact hlearnable before hbefore
  have hdecoded := decodeDirectory_stored hpublished.holds hfits.fields fun record hin =>
    (hsaved record hin).storable
  have hsame : SameRecords (((recordBlocks unicode (store.state.savedRecords records)
      store.state.characterIds).flatten.map (storedRecord unicode format))) _ :=
    stored_same hsaved hfew
  obtain ⟨hpersisted, htoday⟩ := @afterSave_state unicode store records call
  refine ⟨hpublished.unpaused, _, hdecoded, ?_, ?_⟩
  · intro record hin
    obtain ⟨saved, hin', rfl⟩ := List.mem_map.mp hin
    dsimp only
    rw [htoday]
    have hnot := (savedRecords_settled ((recordBlocks_perm hsaved hfew).subset hin')).1
    exact ⟨hnot.used, hnot.updated⟩
  · dsimp only
    rw [htoday, hpersisted, afterSave_characterIds, stored_valid hsaved hfew]
    refine SameRecords.symm ((hsame.decay store.state.today).trans ?_)
    rw [decay_settled fun record hin => (savedRecords_settled hin).2]
    exact .refl _

theorem Matches.of_reset {store : LearningStore} {directory after : Directory}
    {listing : List FileName} (hlisting : IsListing directory listing)
    (hrun : runAll (resetSteps listing) directory = some after) :
    Matches unicode format ⟨store.clear unicode, after⟩ := by
  rw [runAll_resetSteps] at hrun
  obtain rfl := Option.some.inj hrun
  refine ⟨remaining_resetNames hlisting (by decide), [], ?_, ?_, .refl _⟩
  · exact decodeDirectory_of_none (remaining_resetNames hlisting IsMemory.metadata.isMemoryFile)
  · exact fun _ hin => absurd hin List.not_mem_nil

end

end BeanKey.Learning
