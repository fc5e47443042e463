import BeanKey.Learning.Layers

/-! Every call on the store keeps its indexes on its records. -/
namespace BeanKey.Learning
open BeanKey.Lattice
open BeanKey.Dictionary (CharacterIdMap FloatFormat)

/-- Both layers are fresh, and both indexes list them. -/
structure Consistent (unicode : UnicodeTable) (store : LearningStore) : Prop where
  persistedIndex : store.persistedIndex =
    .new unicode store.state.persisted store.state.characterIds
  temporaryIndex : Indexes unicode store.state.characterIds store.temporaryIndex
    store.state.temporary
  below : MemoryTrie.RecordsBelow store.state.temporary.length store.temporaryIndex.nodes
  persisted : IsFreshLayer unicode store.state.characterIds store.state.today store.state.persisted
  temporary : IsFreshLayer unicode store.state.characterIds store.state.today store.state.temporary

def Teaches (unicode : UnicodeTable) (characterIds : CharacterIdMap)
    (entry : DictionaryEntry) : Prop :=
  validLearningEntry unicode entry characterIds = true → Learnable unicode characterIds entry

theorem recordsBelow_empty (bound : Nat) :
    MemoryTrie.RecordsBelow bound MemoryTrie.empty.nodes := by
  intro node hnode
  obtain rfl := List.mem_singleton.mp hnode
  exact fun _ hin => absurd hin List.not_mem_nil

theorem countAgain_fresh (today : UInt16) (entry : DictionaryEntry) (record : LearningRecord) :
    FreshRecord today (LearningStore.countAgain today entry record) where
  counted := by
    have hcount : (saturatingAddCount record.count 1).toNat = min (record.count.toNat + 1) 255 :=
      UInt8.toNat_ofNat_of_lt' (by rw [UInt8.size]; omega)
    rw [LearningStore.countAgain, hcount]
    omega
  used := Nat.le_refl _
  recent := by simp [LearningStore.countAgain]

section
open LearningStore
variable {unicode : UnicodeTable} {store : LearningStore}

theorem findTemporary_spec
    (h : Indexes unicode store.state.characterIds store.temporaryIndex store.state.temporary)
    {entry : DictionaryEntry} {ids : List UInt8}
    (hids : store.state.characterIds.encode unicode entry.ruby = some ids) :
    match store.findTemporary ids entry with
    | some index => ∃ record, store.state.temporary[index]? = some record ∧
        sameEntry record.entry entry = true
    | none => ∀ record ∈ store.state.temporary, sameEntry record.entry entry = false := by
  rw [LearningStore.findTemporary, h.lookup_exact]
  cases hfound : (scan _ store.state.temporary).find? _ with
  | some index =>
    have hsame := List.find?_some hfound
    cases hrecord : store.state.temporary[index]? with
    | none => simp [hrecord] at hsame
    | some record => exact ⟨record, hrecord, by simpa [hrecord] using hsame⟩
  | none =>
    intro record hin
    refine Bool.eq_false_iff.mpr fun hsame => ?_
    obtain ⟨index, hindex⟩ := List.mem_iff_getElem?.mp hin
    have hruby := (sameEntry_iff.mp hsame).1
    have hscanned := List.find?_eq_none.mp hfound index (mem_scan.mpr ⟨record, hindex, by
      rw [hruby, hids]
      exact decide_eq_true rfl⟩)
    simp [hindex, hsame] at hscanned

/-- What `memorize` does with an entry. -/
inductive Memorized (unicode : UnicodeTable) (store : LearningStore) (entry : DictionaryEntry) :
    LearningStore → Prop
  | refused (hinvalid : validLearningEntry unicode entry store.state.characterIds = false)
      {after : LearningStore} (hsame : store = after) : Memorized unicode store entry after
  | counted (hvalid : validLearningEntry unicode entry store.state.characterIds = true)
      {index : Nat}
      {record : LearningRecord} (hrecord : store.state.temporary[index]? = some record)
      (hsame : sameEntry record.entry entry = true) {after : LearningStore}
      (hafter : after = { store with
        state := { store.state with
          temporary := store.state.temporary.set index
            (countAgain store.state.today entry record) } }) : Memorized unicode store entry after
  | added (hvalid : validLearningEntry unicode entry store.state.characterIds = true)
      {ids : List UInt8} (hids : store.state.characterIds.encode unicode entry.ruby = some ids)
      (hnew : ∀ record ∈ store.state.temporary, sameEntry record.entry entry = false)
      {after : LearningStore} (hafter : after = { store with
        state := { store.state with
          temporary := store.state.temporary ++ [⟨entry, store.state.today, store.state.today, 1⟩] }
        temporaryIndex := store.temporaryIndex.insert ids store.state.temporary.length }) :
      Memorized unicode store entry after

theorem memorize_cases
    (h : Indexes unicode store.state.characterIds store.temporaryIndex store.state.temporary)
    (entry : DictionaryEntry) : Memorized unicode store entry (store.memorize unicode entry) := by
  rw [LearningStore.memorize]
  split
  · next hvalid =>
    obtain ⟨ids, hids⟩ := encode_of_valid hvalid
    have hfind := findTemporary_spec h hids
    rw [hids]
    dsimp only
    cases hfound : store.findTemporary ids entry with
    | some index =>
      rw [hfound] at hfind
      obtain ⟨record, hrecord, hsame⟩ := hfind
      refine .counted hvalid hrecord hsame ?_
      obtain ⟨hlt, rfl⟩ := List.getElem?_eq_some_iff.mp hrecord
      dsimp only
      rw [List.modify_eq_set_get _ hlt]
      rfl
    | none =>
      rw [hfound] at hfind
      exact .added hvalid hids hfind rfl
  · next hinvalid => exact .refused (Bool.eq_false_iff.mpr hinvalid) rfl

end

namespace Consistent
open LearningStore
variable {unicode : UnicodeTable}

theorem ofState {state : LearningState} (htemporary : state.temporary = [])
    (hpersisted : IsFreshLayer unicode state.characterIds state.today state.persisted) :
    Consistent unicode (.ofState unicode state) where
  persistedIndex := rfl
  temporaryIndex := by
    change Indexes _ _ _ state.temporary
    rw [htemporary]
    exact indexes_empty
  below := recordsBelow_empty _
  persisted := hpersisted
  temporary := by
    change IsFreshLayer _ _ _ state.temporary
    rw [htemporary]
    exact isFreshLayer_nil _

variable {store : LearningStore} (h : Consistent unicode store)
include h

theorem refreshDay (today : UInt16) : Consistent unicode (store.refreshDay unicode today) := by
  rw [LearningStore.refreshDay]
  split
  · exact h
  · exact ⟨rfl, indexes_new _, MemoryTrie.new_recordsBelow _ _ _, h.persisted.layer.refresh today,
      h.temporary.layer.refresh today⟩

theorem memorize {entry : DictionaryEntry}
    (hteaches : Teaches unicode store.state.characterIds entry) :
    Consistent unicode (store.memorize unicode entry) := by
  cases memorize_cases h.temporaryIndex entry with
  | refused _ hsame => exact hsame ▸ h
  | counted hvalid hrecord hsame hmemorized =>
    rw [hmemorized]
    refine ⟨h.persistedIndex, h.temporaryIndex.set hrecord (sameEntry_iff.mp hsame).1.symm, ?_,
      h.persisted, ?_, ?_⟩
    · dsimp only
      rw [List.length_set]
      exact h.below
    · dsimp only
      rw [List.map_set]
      refine h.temporary.layer.replace ?_ hsame (hteaches hvalid)
      rw [List.getElem?_map, hrecord]
      rfl
    · intro other hin
      cases List.mem_or_eq_of_mem_set hin with
      | inl hold => exact h.temporary.fresh other hold
      | inr heq =>
        rw [heq]
        exact countAgain_fresh _ _ _
  | added hvalid hids hnew hmemorized =>
    have hlength : (store.state.temporary ++ [(⟨entry, store.state.today, store.state.today, 1⟩ :
        LearningRecord)]).length = store.state.temporary.length + 1 := by simp
    rw [hmemorized]
    refine ⟨h.persistedIndex, h.temporaryIndex.insert hids, ?_, h.persisted, ?_, ?_⟩
    · dsimp only
      rw [hlength]
      exact MemoryTrie.insertFrom_recordsBelow (Nat.lt_succ_self _)
        (fun node hin record hrecord => (h.below node hin record hrecord).trans
          (Nat.lt_succ_self _))
        _ 0
    · dsimp only
      rw [List.map_append]
      refine h.temporary.layer.append_one (hteaches hvalid) ?_
      intro other hother
      obtain ⟨record, hin, rfl⟩ := List.mem_map.mp hother
      exact hnew record hin
    · intro other hin
      cases List.mem_append.mp hin with
      | inl hold => exact h.temporary.fresh other hold
      | inr hlast =>
        rw [List.mem_singleton.mp hlast]
        exact ⟨Nat.le_refl _, Nat.le_refl _, by simp⟩

theorem learn {entries : List DictionaryEntry}
    (hteaches : ∀ entry ∈ entries, Teaches unicode store.state.characterIds entry) :
    Consistent unicode (store.learn unicode entries) := by
  rw [LearningStore.learn]
  split
  · next hmode =>
    clear hmode
    induction entries generalizing store with
    | nil => exact h
    | cons entry rest ih =>
      rw [List.foldl_cons]
      refine ih (h.memorize (hteaches entry List.mem_cons_self)) ?_
      intro other hin
      rw [memorize_characterIds]
      exact hteaches other (List.mem_cons_of_mem _ hin)
  · exact h

theorem forgetTemporary (entries : List DictionaryEntry) :
    Consistent unicode (store.forgetTemporary unicode entries) := by
  rw [LearningStore.forgetTemporary]
  split
  · exact ⟨h.persistedIndex, indexes_new _, MemoryTrie.new_recordsBelow _ _ _, h.persisted,
      h.temporary.sublist List.filter_sublist⟩
  · exact h

theorem publish {records : List LearningRecord}
    (hrecords : IsLayer unicode store.state.characterIds (records.map LearningRecord.entry)) :
    Consistent unicode (store.publish unicode records) :=
  ⟨rfl, h.temporaryIndex, h.below, hrecords.saved, h.temporary⟩

theorem clearTemporary : Consistent unicode store.clearTemporary :=
  ⟨h.persistedIndex, indexes_empty, recordsBelow_empty _, h.persisted, isFreshLayer_nil _⟩

omit h in
theorem clear (store : LearningStore) : Consistent unicode (store.clear unicode) :=
  .ofState rfl (isFreshLayer_nil _)

/-- What a call hands to a save is a layer. -/
theorem recordsToSave {call : SaveCall} {records : List LearningRecord}
    (hrecords : store.state.recordsToSave call = some records) :
    IsLayer unicode store.state.characterIds (records.map LearningRecord.entry) := by
  cases call with
  | commit =>
    rw [LearningState.recordsToSave] at hrecords
    split at hrecords
    · exact absurd hrecords (by simp)
    · obtain rfl := Option.some.inj hrecords
      refine h.persisted.layer.mergeAll ?_
      intro record hin
      exact h.temporary.layer.learnable _ (List.mem_map.mpr ⟨record, hin, rfl⟩)
  | forget entries =>
    rw [LearningState.recordsToSave] at hrecords
    split at hrecords
    · exact absurd hrecords (by simp)
    · obtain rfl := Option.some.inj hrecords
      exact h.persisted.layer.sublist (List.filter_sublist.map _)

end Consistent

/-! ### What a consistent store answers -/

/-- The index of a layer agrees with a scan of its records, and names no other position. -/
structure IndexAgrees (unicode : UnicodeTable) (characterIds : CharacterIdMap)
    (records : List LearningRecord) (find : List UInt8 → MatchKind → List Nat) : Prop where
  scan : ∀ (ruby : Text) (maximumLength : Nat), (graphemes unicode ruby).length ≤ maximumLength →
    LearningStore.positions unicode characterIds find .exact ruby maximumLength =
      scan (fun record => record.entry.ruby = ruby) records
  bounds : ∀ kind ruby maximumLength,
    ∀ position ∈ LearningStore.positions unicode characterIds find kind ruby maximumLength,
      position < records.length

/-- What holds of a layer after the refresh of `today`. -/
structure SoundLayer (unicode : UnicodeTable) (characterIds : CharacterIdMap) (today : UInt16)
    (records : List LearningRecord) (find : List UInt8 → MatchKind → List Nat) : Prop where
  index : IndexAgrees unicode characterIds records find
  distinct : records.Pairwise fun first second => sameEntry first.entry second.entry = false
  valid : ∀ record ∈ records, validLearningEntry unicode record.entry characterIds = true
  fresh : ∀ record ∈ records, FreshRecord today record

structure SoundStore (unicode : UnicodeTable) (store : LearningStore) : Prop where
  persisted : SoundLayer unicode store.state.characterIds store.state.today store.state.persisted
    store.persistedIndex.lookup
  temporary : SoundLayer unicode store.state.characterIds store.state.today store.state.temporary
    store.temporaryIndex.lookup
  lookups : ∀ kind ruby maximumLength, (store.lookup unicode kind ruby maximumLength).isSome

section
variable {unicode : UnicodeTable} {characterIds : CharacterIdMap} {records : List LearningRecord}
  {find : List UInt8 → MatchKind → List Nat}

theorem lookupIds_exact (graphemes : List Grapheme) :
    LearningStore.lookupIds characterIds .exact graphemes = graphemes.mapM characterIds.id := by
  induction graphemes with
  | nil => rfl
  | cons grapheme rest ih =>
    rw [LearningStore.lookupIds, List.mapM_cons, ih]
    cases characterIds.id grapheme with
    | none => rfl
    | some id => cases rest.mapM characterIds.id <;> rfl

/-- An exact lookup by characters is one by readings, as readings are known by theirs. -/
theorem positions_exact (hlayer : IsLayer unicode characterIds (records.map LearningRecord.entry))
    (hfind : ∀ ids ≠ [], find ids .exact =
      scan (fun record => characterIds.encode unicode record.entry.ruby = some ids) records)
    {ruby : Text} {maximumLength : Nat}
    (hlength : (graphemes unicode ruby).length ≤ maximumLength) :
    LearningStore.positions unicode characterIds find .exact ruby maximumLength =
      scan (fun record => record.entry.ruby = ruby) records := by
  have hlearnable : ∀ record ∈ records, Learnable unicode characterIds record.entry :=
    fun record hin => hlayer.learnable _ (List.mem_map.mpr ⟨record, hin, rfl⟩)
  have hempty : (∀ record ∈ records, record.entry.ruby ≠ ruby) →
      scan (fun record => record.entry.ruby = ruby) records = [] := by
    intro hne
    refine List.eq_nil_iff_forall_not_mem.mpr fun index hin => ?_
    obtain ⟨record, hrecord, hruby⟩ := mem_scan.mp hin
    exact hne record (List.mem_of_getElem? hrecord) (by simpa using hruby)
  rw [LearningStore.positions]
  split
  · next hnil =>
    rw [hempty]
    intro record hin
    rw [hnil]
    exact (hlearnable record hin).ruby_ne_nil
  · next hruby =>
    rw [List.take_of_length_le hlength, lookupIds_exact, ← CharacterIdMap.encode]
    cases hids : characterIds.encode unicode ruby with
    | none =>
      dsimp only
      rw [hempty]
      intro record hin heq
      obtain ⟨ids, hencoded⟩ := encode_of_valid (hlearnable record hin).valid
      rw [heq, hids] at hencoded
      exact absurd hencoded (by simp)
    | some ids =>
      have hne : ids ≠ [] := by
        rintro rfl
        have hpairs := (Loop.mapM_eq_some.mp hids).length_eq
        exact hruby ((graphemes_eq_nil unicode).mp (List.length_eq_zero_iff.mp hpairs))
      dsimp only
      rw [hfind ids hne]
      refine scan_congr fun record _ => decide_eq_decide.mpr ⟨fun hencoded => ?_, fun heq => ?_⟩
      · exact CharacterIdMap.encode_injective hencoded hids
      · rw [heq, hids]

theorem positions_lt {bound : Nat} (h : ∀ ids kind, ∀ position ∈ find ids kind, position < bound)
    (kind : MatchKind) (ruby : Text) (maximumLength : Nat) :
    ∀ position ∈ LearningStore.positions unicode characterIds find kind ruby maximumLength,
      position < bound := by
  intro position hin
  rw [LearningStore.positions] at hin
  split at hin
  · exact absurd hin List.not_mem_nil
  · split at hin
    · exact absurd hin List.not_mem_nil
    · exact h _ kind position hin

theorem exists_records {positions : List Nat}
    (h : ∀ position ∈ positions, position < records.length) :
    ∃ found, positions.mapM (fun index => records[index]?) = some found :=
  Loop.exists_mapM _ _ fun position hin => by simp [h position hin]

end

theorem SoundLayer.of_fresh {unicode : UnicodeTable} {characterIds : CharacterIdMap}
    {today : UInt16}
    {records : List LearningRecord} {find : List UInt8 → MatchKind → List Nat}
    (h : IsFreshLayer unicode characterIds today records)
    (hfind : ∀ ids ≠ [], find ids .exact =
      scan (fun record => characterIds.encode unicode record.entry.ruby = some ids) records)
    (hbounds : ∀ ids kind, ∀ position ∈ find ids kind, position < records.length) :
    SoundLayer unicode characterIds today records find where
  index := ⟨fun _ _ => positions_exact h.layer hfind, positions_lt hbounds⟩
  distinct := List.pairwise_map.mp h.layer.distinct
  valid record hin := (h.layer.learnable _ (List.mem_map.mpr ⟨record, hin, rfl⟩)).valid
  fresh := h.fresh

theorem Consistent.sound {unicode : UnicodeTable} {store : LearningStore}
    (h : Consistent unicode store) : SoundStore unicode store := by
  have hpersistedBounds : ∀ ids kind, ∀ position ∈ store.persistedIndex.lookup ids kind,
      position < store.state.persisted.length := by
    rw [h.persistedIndex]
    refine MemoryLouds.lookup_lt ?_
    rw [MemoryLouds.new_blocks]
    exact MemoryTrie.encode_blocks _ _ _
  have htemporaryBounds := MemoryTrie.lookup_lt h.below
  refine ⟨.of_fresh h.persisted ?_ hpersistedBounds,
    .of_fresh h.temporary (fun ids _ => h.temporaryIndex.lookup_exact ids) htemporaryBounds, ?_⟩
  · intro ids hids
    rw [h.persistedIndex]
    exact MemoryLouds.lookup_exact hids
  · intro kind ruby maximumLength
    rw [LearningStore.lookup]
    split
    · obtain ⟨persisted, hpersisted⟩ := exists_records
        (positions_lt hpersistedBounds kind ruby maximumLength)
      obtain ⟨temporary, htemporary⟩ := exists_records
        (positions_lt htemporaryBounds kind ruby maximumLength)
      rw [hpersisted, htemporary]
      rfl
    · rfl

end BeanKey.Learning
