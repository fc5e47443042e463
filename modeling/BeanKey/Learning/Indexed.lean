import BeanKey.Learning.Commit
import BeanKey.Learning.Refresh
import BeanKey.Learning.Lookup

/-! What every store of every history keeps, whatever is learned and whichever saves fail: each
index is the one of its layer, every reading can be looked up, no entry is pending twice, and the
decay of the day is done. -/
namespace BeanKey.Learning
open BeanKey.Lattice
open BeanKey.Dictionary (CharacterIdMap FloatFormat)

def ValidRecords (unicode : UnicodeTable) (characterIds : CharacterIdMap)
    (records : List LearningRecord) : Prop :=
  ∀ record ∈ records, validLearningEntry unicode record.entry characterIds = true

structure Indexed (unicode : UnicodeTable) (store : LearningStore) : Prop where
  persistedIndex : store.persistedIndex =
    .new unicode store.state.persisted store.state.characterIds
  temporaryIndex : store.temporaryIndex =
    .new unicode store.state.temporary store.state.characterIds
  persisted : ValidRecords unicode store.state.characterIds store.state.persisted
  temporary : ValidRecords unicode store.state.characterIds store.state.temporary
  distinct : (store.state.temporary.map LearningRecord.entry).Pairwise fun first second =>
    sameEntry first second = false
  settled : ∀ record ∈ store.state.persisted, decayRecord store.state.today record = some record
  dated : ∀ record ∈ store.state.temporary, NotAfter store.state.today record

section
variable {unicode : UnicodeTable} {characterIds : CharacterIdMap} {records : List LearningRecord}

theorem validRecords_nil : ValidRecords unicode characterIds [] :=
  fun _ hin => absurd hin List.not_mem_nil

theorem ValidRecords.decay (h : ValidRecords unicode characterIds records) (today : UInt16) :
    ValidRecords unicode characterIds (decay records today) := by
  intro kept hin
  obtain ⟨record, hrecord, hentry, -⟩ := mem_decay hin
  rw [hentry]
  exact h record hrecord

theorem ValidRecords.append_one (h : ValidRecords unicode characterIds records)
    {record : LearningRecord}
    (hrecord : validLearningEntry unicode record.entry characterIds = true) :
    ValidRecords unicode characterIds (records ++ [record]) :=
  List.forall_mem_append.mpr ⟨h, List.forall_mem_singleton.mpr hrecord⟩

theorem ValidRecords.merge (h : ValidRecords unicode characterIds records)
    {incoming : LearningRecord}
    (hincoming : validLearningEntry unicode incoming.entry characterIds = true) :
    ValidRecords unicode characterIds (mergeRecord records incoming) := by
  induction records with
  | nil => exact List.forall_mem_singleton.mpr hincoming
  | cons record rest ih =>
    obtain ⟨hrecord, hrest⟩ := List.forall_mem_cons.mp h
    rw [mergeRecord]
    split
    · exact List.forall_mem_cons.mpr ⟨hincoming, hrest⟩
    · exact List.forall_mem_cons.mpr ⟨hrecord, ih hrest⟩

theorem ValidRecords.mergeAll (h : ValidRecords unicode characterIds records)
    {incoming : List LearningRecord} (hincoming : ValidRecords unicode characterIds incoming) :
    ValidRecords unicode characterIds (incoming.foldl mergeRecord records) := by
  induction incoming generalizing records with
  | nil => exact h
  | cons record rest ih =>
    obtain ⟨hrecord, hrest⟩ := List.forall_mem_cons.mp hincoming
    exact ih (h.merge hrecord) hrest

theorem ValidRecords.readingsEncode (h : ValidRecords unicode characterIds records) :
    ReadingsEncode unicode characterIds records := by
  intro record hin
  have hvalid := h record hin
  simp only [validLearningEntry, Bool.and_eq_true, decide_eq_true_eq] at hvalid
  exact ⟨hvalid.1.1.2, hvalid.2⟩

theorem mem_decay_settled {today : UInt16} {record : LearningRecord}
    (h : record ∈ decay records today) :
    decayRecord today record = some record := by
  obtain ⟨_, -, hkept⟩ := List.mem_filterMap.mp h
  exact (decayRecord_settled hkept).2

end

theorem foldl_zipIdx_congr {α β γ : Type*} {step : β → α × Nat → β} {read : α → γ}
    (hstep : ∀ state first second index, read first = read second →
      step state (first, index) = step state (second, index))
    {firsts seconds : List α} (h : firsts.map read = seconds.map read) (start : Nat) (state : β) :
    (firsts.zipIdx start).foldl step state = (seconds.zipIdx start).foldl step state := by
  induction firsts generalizing seconds start state with
  | nil => rw [List.map_eq_nil_iff.mp h.symm]
  | cons first firsts ih =>
    cases seconds with
    | nil => exact absurd h (by simp)
    | cons second seconds =>
      obtain ⟨hfirst, hrest⟩ := List.cons.inj h
      rw [List.zipIdx_cons, List.zipIdx_cons, List.foldl_cons, List.foldl_cons,
        hstep state first second start hfirst]
      exact ih hrest _ _

theorem new_congr {unicode : UnicodeTable} {characterIds : CharacterIdMap}
    {records others : List LearningRecord}
    (h : records.map (fun record => record.entry.ruby) = others.map
      fun record => record.entry.ruby) :
    MemoryTrie.new unicode records characterIds = MemoryTrie.new unicode others characterIds := by
  refine foldl_zipIdx_congr (fun trie first second index hsame => ?_) h 0 MemoryTrie.empty
  dsimp only
  rw [hsame]

theorem new_concat {unicode : UnicodeTable} {characterIds : CharacterIdMap}
    (records : List LearningRecord) {record : LearningRecord} {ids : List UInt8}
    (h : characterIds.encode unicode record.entry.ruby = some ids) :
    MemoryTrie.new unicode (records ++ [record]) characterIds =
      (MemoryTrie.new unicode records characterIds).insert ids records.length := by
  rw [MemoryTrie.new, List.zipIdx_append, List.foldl_append, ← MemoryTrie.new]
  simp only [List.zipIdx_singleton, List.foldl_cons, List.foldl_nil, Nat.zero_add, h]

namespace Indexed
open LearningStore
variable {unicode : UnicodeTable}

theorem ofState {state : LearningState} (htemporary : state.temporary = [])
    (hpersisted : ValidRecords unicode state.characterIds state.persisted)
    (hsettled : ∀ record ∈ state.persisted, decayRecord state.today record = some record) :
    Indexed unicode (.ofState unicode state) := by
  refine ⟨rfl, ?_, hpersisted, ?_, ?_, hsettled, ?_⟩
  · change _ = MemoryTrie.new _ state.temporary _
    rw [htemporary]
    rfl
  · change ValidRecords _ _ state.temporary
    rw [htemporary]
    exact validRecords_nil
  · change (state.temporary.map LearningRecord.entry).Pairwise _
    rw [htemporary]
    exact .nil
  · change ∀ record ∈ state.temporary, _
    rw [htemporary]
    exact fun _ hin => absurd hin List.not_mem_nil

theorem clear (store : LearningStore) : Indexed unicode (store.clear unicode) :=
  .ofState rfl validRecords_nil fun _ hin => absurd hin List.not_mem_nil

variable {store : LearningStore} (h : Indexed unicode store)
include h

theorem indexes :
    Indexes unicode store.state.characterIds store.temporaryIndex store.state.temporary := by
  rw [h.temporaryIndex]
  exact indexes_new _

theorem refreshDay (today : UInt16) : Indexed unicode (store.refreshDay unicode today) := by
  rw [LearningStore.refreshDay]
  split
  · exact h
  · exact ⟨rfl, rfl, h.persisted.decay today, h.temporary.decay today,
      h.distinct.sublist (decay_entries _ _), fun _ => mem_decay_settled, decay_notAfter⟩

theorem memorize (entry : DictionaryEntry) : Indexed unicode (store.memorize unicode entry) := by
  cases memorize_cases h.indexes entry with
  | refused _ hsame => exact hsame ▸ h
  | counted hvalid hrecord hsame hafter =>
    rw [hafter]
    refine ⟨h.persistedIndex, h.temporaryIndex.trans (new_congr ?_), h.persisted, ?_, ?_, h.settled,
      ?_⟩
    · refine List.ext_getElem? fun place => ?_
      rw [List.getElem?_map, List.getElem?_map, List.getElem?_set]
      split
      · next heq =>
        rw [← heq, hrecord, if_pos (List.getElem?_eq_some_iff.mp hrecord).1]
        exact congrArg some (sameEntry_iff.mp hsame).1
      · rfl
    · intro other hin
      cases List.mem_or_eq_of_mem_set hin with
      | inl hold => exact h.temporary other hold
      | inr heq =>
        rw [heq]
        exact hvalid
    · dsimp only
      rw [List.map_set]
      refine distinct_set h.distinct ?_ hsame
      rw [List.getElem?_map, hrecord]
      rfl
    · intro other hin
      cases List.mem_or_eq_of_mem_set hin with
      | inl hold => exact h.dated other hold
      | inr heq =>
        rw [heq]
        exact ⟨Nat.le_refl _, (h.dated _ (List.mem_of_getElem? hrecord)).updated⟩
  | added hvalid hids hnew hafter =>
    rw [hafter]
    refine ⟨h.persistedIndex, ?_, h.persisted, h.temporary.append_one hvalid, ?_, h.settled, ?_⟩
    · dsimp only
      rw [h.temporaryIndex, new_concat _ hids]
    · dsimp only
      rw [List.map_append]
      refine List.pairwise_append.mpr ⟨h.distinct, List.pairwise_singleton _ _, ?_⟩
      intro other hother last hlast
      obtain ⟨record, hin, rfl⟩ := List.mem_map.mp hother
      rw [List.mem_singleton.mp hlast]
      exact hnew record hin
    · exact List.forall_mem_append.mpr ⟨h.dated,
        List.forall_mem_singleton.mpr ⟨Nat.le_refl _, Nat.le_refl _⟩⟩

theorem learn (entries : List DictionaryEntry) : Indexed unicode (store.learn unicode entries) := by
  rw [LearningStore.learn]
  split
  · next hmode =>
    clear hmode
    induction entries generalizing store with
    | nil => exact h
    | cons entry rest ih => exact ih (h.memorize entry)
  · exact h

theorem forgetTemporary (entries : List DictionaryEntry) :
    Indexed unicode (store.forgetTemporary unicode entries) := by
  rw [LearningStore.forgetTemporary]
  split
  · exact ⟨h.persistedIndex, rfl, h.persisted,
      fun record hin => h.temporary record (List.mem_of_mem_filter hin),
      h.distinct.sublist (List.filter_sublist.map _), h.settled,
      fun record hin => h.dated record (List.mem_of_mem_filter hin)⟩
  · exact h

theorem beforeSave (call : SaveCall) : Indexed unicode (store.beforeSave unicode call) := by
  cases call with
  | commit => exact h
  | forget entries => exact h.forgetTemporary entries

theorem recordsToSave {call : SaveCall} {records : List LearningRecord}
    (hrecords : store.state.recordsToSave call = some records) :
    ValidRecords unicode store.state.characterIds records := by
  cases call with
  | commit =>
    rw [LearningState.recordsToSave] at hrecords
    split at hrecords
    · exact absurd hrecords (by simp)
    · obtain rfl := Option.some.inj hrecords
      exact h.persisted.mergeAll h.temporary
  | forget entries =>
    rw [LearningState.recordsToSave] at hrecords
    split at hrecords
    · exact absurd hrecords (by simp)
    · obtain rfl := Option.some.inj hrecords
      exact fun record hin => h.persisted record (List.mem_of_mem_filter hin)

theorem publish {records : List LearningRecord}
    (hrecords : ValidRecords unicode store.state.characterIds records) :
    Indexed unicode (store.publish unicode records) :=
  ⟨rfl, h.temporaryIndex, fun record hin => hrecords.decay _ record (mem_savedRecords hin),
    h.temporary, h.distinct, fun _ hin => (savedRecords_settled hin).2, h.dated⟩

theorem afterSave {records : List LearningRecord}
    (hrecords : ValidRecords unicode store.state.characterIds records) (call : SaveCall) :
    Indexed unicode (store.afterSave unicode records call) := by
  have hpublished := h.publish hrecords
  cases call with
  | commit =>
    exact ⟨hpublished.persistedIndex, rfl, hpublished.persisted, validRecords_nil, .nil,
      hpublished.settled, fun _ hin => absurd hin List.not_mem_nil⟩
  | forget entries => exact hpublished

end Indexed

section
variable {unicode : UnicodeTable} {format : FloatFormat}

theorem indexed_openMemory {directory after : Directory} {listing : List FileName}
    {mode : LearningMode} {maxCount : Nat} {characterIds : CharacterIdMap} {today : UInt16}
    {state : LearningState}
    (h : openMemory unicode format directory listing mode maxCount characterIds today =
      some (after, state)) : Indexed unicode (.ofState unicode state) := by
  obtain ⟨-, -, records, -, rfl⟩ | ⟨-, -, rfl⟩ := openMemory_cases h
  · refine .ofState rfl (ValidRecords.decay ?_ today) fun _ => mem_decay_settled
    exact fun record hin => (List.mem_filter.mp hin).2
  · exact .ofState rfl validRecords_nil fun _ hin => absurd hin List.not_mem_nil

theorem Indexed.step {world next : World} {today : UInt16} {event : Event}
    (h : Indexed unicode world.store) (hstep : Step unicode format today world event next) :
    Indexed unicode next.store := by
  have hrefreshed := h.refreshDay today
  cases hstep with
  | lookup kind ruby maximumLength => exact hrefreshed
  | learn hids => exact hrefreshed.learn _
  | learnPostPrediction hids => exact hrefreshed.learn _
  | saveNothing hnone => exact hrefreshed.beforeSave _
  | @save call records directory hrecords hrun =>
    have hsaving := hrefreshed.beforeSave call
    exact hsaving.afterSave (hsaving.recordsToSave hrecords) _
  | saveFails hrecords hcut => exact hrefreshed.beforeSave _
  | reset hlisting hrun => exact .clear _
  | resetFails hlisting hcut => exact .clear _
  | reopen hlisting hopen => exact indexed_openMemory hopen
  | reopenFails hlisting hcut => exact h

theorem Reached.indexed {characterIds : CharacterIdMap} {allowed : World → UInt16 → Event → Prop}
    {world : World} (h : Reached unicode format characterIds allowed world) :
    Indexed unicode world.store := by
  induction h with
  | opened hopen => exact indexed_openMemory hopen
  | step _ _ hstep ih => exact ih.step hstep

end

end BeanKey.Learning
