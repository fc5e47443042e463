import BeanKey.Learning.Store
import BeanKey.Learning.Contents

/-! What every layer of a store keeps: each entry once, each record fresh, each position of the
index on a record of its reading. -/
namespace BeanKey.Learning
open BeanKey.Lattice
open BeanKey.Dictionary (CharacterIdMap FloatFormat)

/-! ### Decay -/

theorem halve_keeps (today : UInt16) (record : LearningRecord) :
    (halve today record).entry = record.entry ∧
      (halve today record).lastUsedDay = record.lastUsedDay := by
  induction record using halve.induct today with
  | case1 record hlate ih =>
    rw [halve, if_pos hlate]
    exact ih
  | case2 record hrecent =>
    rw [halve, if_neg hrecent]
    exact ⟨rfl, rfl⟩

structure FreshRecord (today : UInt16) (record : LearningRecord) : Prop where
  counted : 1 ≤ record.count.toNat
  used : record.lastUsedDay.toNat ≤ today.toNat
  recent : today.toNat - record.lastUsedDay.toNat < 128

theorem decayRecord_fresh {today : UInt16} {record kept : LearningRecord}
    (h : decayRecord today record = some kept) :
    kept.entry = record.entry ∧ FreshRecord today kept := by
  rw [decayRecord] at h
  generalize hstart : (if today < record.lastUsedDay ∨ today < record.lastUpdatedDay then
    { record with lastUsedDay := today, lastUpdatedDay := today, count := 1 } else record) =
      start at h
  have hentry : start.entry = record.entry := by
    rw [← hstart]
    split <;> rfl
  have hused : start.lastUsedDay.toNat ≤ today.toNat := by
    rw [← hstart]
    split
    · exact Nat.le_refl _
    · next hpast => exact Nat.not_lt.mp fun hlt => hpast (.inl (UInt16.lt_iff_toNat_lt.mpr hlt))
  obtain ⟨hhalved, hday⟩ := halve_keeps today start
  dsimp only at h
  split at h
  · exact absurd h (by simp)
  · next hrecent =>
    split at h
    · next hcount =>
      obtain rfl := Option.some.inj h
      refine ⟨hhalved.trans hentry, UInt8.lt_iff_toNat_lt.mp hcount, ?_, ?_⟩
      · rwa [hday]
      · rw [hday]
        omega
    · exact absurd h (by simp)

theorem mem_decay {records : List LearningRecord} {today : UInt16} {kept : LearningRecord}
    (h : kept ∈ decay records today) :
    ∃ record ∈ records, kept.entry = record.entry ∧ FreshRecord today kept := by
  obtain ⟨record, hin, hkept⟩ := List.mem_filterMap.mp h
  exact ⟨record, hin, decayRecord_fresh hkept⟩

theorem decay_entries (records : List LearningRecord) (today : UInt16) :
    ((decay records today).map LearningRecord.entry).Sublist
    (records.map LearningRecord.entry) := by
  induction records with
  | nil => exact List.Sublist.slnil
  | cons record rest ih =>
    rw [decay, List.filterMap_cons]
    cases hkept : decayRecord today record with
    | none => exact ih.cons _
    | some kept =>
      rw [List.map_cons, List.map_cons, (decayRecord_fresh hkept).1]
      exact ih.cons_cons _

/-! ### The entries of a layer -/

/-- What the store learns: a valid entry with a word and identifiers of 16 bits. -/
structure Learnable (unicode : UnicodeTable) (characterIds : CharacterIdMap)
    (entry : DictionaryEntry) : Prop where
  valid : validLearningEntry unicode entry characterIds = true
  word : entry.word ≠ []
  ids : IsWord16 entry

/-- Every entry is learnable, and none comes twice. -/
structure IsLayer (unicode : UnicodeTable) (characterIds : CharacterIdMap)
    (entries : List DictionaryEntry) : Prop where
  learnable : ∀ entry ∈ entries, Learnable unicode characterIds entry
  distinct : entries.Pairwise fun first second => sameEntry first second = false

theorem sameEntry_iff {first second : DictionaryEntry} : sameEntry first second = true ↔
    first.ruby = second.ruby ∧ first.word = second.word ∧ first.leftId = second.leftId ∧
      first.rightId = second.rightId := by
  simp [sameEntry, and_assoc]

theorem sameEntry_comm (first second : DictionaryEntry) :
    sameEntry first second = sameEntry second first := by
  rw [Bool.eq_iff_iff, sameEntry_iff, sameEntry_iff]
  simp only [eq_comm]

theorem sameEntry_congr {first second : DictionaryEntry} (h : sameEntry first second = true)
    (other : DictionaryEntry) : sameEntry first other = sameEntry second other := by
  obtain ⟨hruby, hword, hleft, hright⟩ := sameEntry_iff.mp h
  rw [Bool.eq_iff_iff, sameEntry_iff, sameEntry_iff, hruby, hword, hleft, hright]

section
variable {unicode : UnicodeTable} {characterIds : CharacterIdMap}

theorem storable_of_valid {entry : DictionaryEntry}
    (h : validLearningEntry unicode entry characterIds = true) (hids : IsWord16 entry) :
    Storable entry := by
  simp only [validLearningEntry, Bool.and_eq_true, Bool.not_eq_true'] at h
  exact ⟨h.1.1.1, h.1.2, hids⟩

theorem ruby_ne_nil_of_valid {entry : DictionaryEntry}
    (h : validLearningEntry unicode entry characterIds = true) : entry.ruby ≠ [] := by
  simp only [validLearningEntry, Bool.and_eq_true, decide_eq_true_eq] at h
  exact h.1.1.2

theorem Learnable.storable {entry : DictionaryEntry} (h : Learnable unicode characterIds entry) :
    Storable entry := storable_of_valid h.valid h.ids

theorem Learnable.ruby_ne_nil {entry : DictionaryEntry} (h : Learnable unicode characterIds entry) :
    entry.ruby ≠ [] := ruby_ne_nil_of_valid h.valid

theorem encode_of_valid {entry : DictionaryEntry}
    (h : validLearningEntry unicode entry characterIds = true) :
    ∃ ids, characterIds.encode unicode entry.ruby = some ids := by
  simp only [validLearningEntry, Bool.and_eq_true] at h
  exact Option.isSome_iff_exists.mp h.2

theorem isLayer_nil : IsLayer unicode characterIds [] :=
  ⟨fun _ hin => absurd hin List.not_mem_nil, .nil⟩

theorem IsLayer.sublist {entries kept : List DictionaryEntry}
    (h : IsLayer unicode characterIds entries) (hkept : kept.Sublist entries) :
    IsLayer unicode characterIds kept :=
  ⟨fun entry hin => h.learnable entry (hkept.subset hin), h.distinct.sublist hkept⟩

theorem IsLayer.perm {entries others : List DictionaryEntry}
    (h : IsLayer unicode characterIds entries) (hperm : others.Perm entries) :
    IsLayer unicode characterIds others := by
  refine ⟨fun entry hin => h.learnable entry (hperm.subset hin), ?_⟩
  refine (hperm.pairwise_iff ?_).mpr h.distinct
  intro first second hdiffer
  rw [sameEntry_comm, hdiffer]

theorem IsLayer.append_one {entries : List DictionaryEntry} {entry : DictionaryEntry}
    (h : IsLayer unicode characterIds entries) (hentry : Learnable unicode characterIds entry)
    (hnew : ∀ other ∈ entries, sameEntry other entry = false) :
    IsLayer unicode characterIds (entries ++ [entry]) := by
  constructor
  · intro other hin
    cases List.mem_append.mp hin with
    | inl hold => exact h.learnable other hold
    | inr hlast => exact List.mem_singleton.mp hlast ▸ hentry
  · refine List.pairwise_append.mpr ⟨h.distinct, List.pairwise_singleton _ _, ?_⟩
    intro other hother last hlast
    rw [List.mem_singleton.mp hlast]
    exact hnew other hother

theorem distinct_set {entries : List DictionaryEntry}
    (h : entries.Pairwise fun first second => sameEntry first second = false) {index : Nat}
    {old entry : DictionaryEntry} (hold : entries[index]? = some old)
    (hsame : sameEntry old entry = true) :
    (entries.set index entry).Pairwise fun first second => sameEntry first second = false := by
  have hat : ∀ (place : Nat) (other : DictionaryEntry),
      (entries.set index entry)[place]? = some other →
      ∃ before, entries[place]? = some before ∧
        ∀ third, sameEntry other third = sameEntry before third := by
    intro place other hother
    rw [List.getElem?_set] at hother
    split at hother
    · next heq =>
      subst heq
      split at hother
      · obtain rfl := Option.some.inj hother
        exact ⟨old, hold, fun third => (sameEntry_congr hsame third).symm⟩
      · exact absurd hother (by simp)
    · exact ⟨other, hother, fun _ => rfl⟩
  rw [List.pairwise_iff_getElem]
  intro first second hfirst hsecond hlt
  obtain ⟨before, hbefore, hfirstSame⟩ := hat first _ (List.getElem?_eq_getElem hfirst)
  obtain ⟨after, hafter, hsecondSame⟩ := hat second _ (List.getElem?_eq_getElem hsecond)
  obtain ⟨hfirstLt, rfl⟩ := List.getElem?_eq_some_iff.mp hbefore
  obtain ⟨hsecondLt, rfl⟩ := List.getElem?_eq_some_iff.mp hafter
  rw [hfirstSame, sameEntry_comm, hsecondSame, sameEntry_comm]
  exact List.pairwise_iff_getElem.mp h first second hfirstLt hsecondLt hlt

theorem IsLayer.replace {entries : List DictionaryEntry} {index : Nat} {old entry : DictionaryEntry}
    (h : IsLayer unicode characterIds entries) (hold : entries[index]? = some old)
    (hsame : sameEntry old entry = true) (hentry : Learnable unicode characterIds entry) :
    IsLayer unicode characterIds (entries.set index entry) := by
  refine ⟨?_, distinct_set h.distinct hold hsame⟩
  intro other hin
  cases List.mem_or_eq_of_mem_set hin with
  | inl hold => exact h.learnable other hold
  | inr heq => exact heq ▸ hentry

/-! ### Merging and saving -/

theorem mergeRecord_entries (records : List LearningRecord) (incoming : LearningRecord) :
    (∃ (index : Nat) (old : DictionaryEntry),
      (records.map LearningRecord.entry)[index]? = some old ∧
        sameEntry old incoming.entry = true ∧
          (mergeRecord records incoming).map LearningRecord.entry =
            (records.map LearningRecord.entry).set index incoming.entry) ∨
      (∀ entry ∈ records.map LearningRecord.entry, sameEntry entry incoming.entry = false) ∧
        (mergeRecord records incoming).map LearningRecord.entry =
          records.map LearningRecord.entry ++ [incoming.entry] := by
  induction records with
  | nil => exact .inr ⟨fun _ hin => absurd hin List.not_mem_nil, rfl⟩
  | cons record rest ih =>
    rw [mergeRecord]
    by_cases hsame : sameEntry record.entry incoming.entry = true
    · rw [if_pos hsame]
      exact .inl ⟨0, record.entry, rfl, hsame, rfl⟩
    · rw [if_neg hsame]
      cases ih with
      | inl hfound =>
        obtain ⟨index, old, hold, holdSame, hset⟩ := hfound
        exact .inl ⟨index + 1, old, hold, holdSame, by
          rw [List.map_cons, hset, List.map_cons, List.set_cons_succ]⟩
      | inr hnew =>
        refine .inr ⟨?_, by rw [List.map_cons, hnew.2]; rfl⟩
        intro entry hin
        cases List.mem_cons.mp hin with
        | inl heq => exact heq ▸ Bool.eq_false_iff.mpr hsame
        | inr hrest => exact hnew.1 entry hrest

theorem IsLayer.merge {records : List LearningRecord} {incoming : LearningRecord}
    (h : IsLayer unicode characterIds (records.map LearningRecord.entry))
    (hincoming : Learnable unicode characterIds incoming.entry) :
    IsLayer unicode characterIds ((mergeRecord records incoming).map LearningRecord.entry) := by
  cases mergeRecord_entries records incoming with
  | inl hfound =>
    obtain ⟨index, old, hold, hsame, hset⟩ := hfound
    rw [hset]
    exact h.replace hold hsame hincoming
  | inr hnew =>
    rw [hnew.2]
    exact h.append_one hincoming hnew.1

theorem IsLayer.mergeAll {records incoming : List LearningRecord}
    (h : IsLayer unicode characterIds (records.map LearningRecord.entry))
    (hincoming : ∀ record ∈ incoming, Learnable unicode characterIds record.entry) :
    IsLayer unicode characterIds
      ((incoming.foldl mergeRecord records).map LearningRecord.entry) := by
  induction incoming generalizing records with
  | nil => exact h
  | cons record rest ih =>
    rw [List.foldl_cons]
    exact ih (h.merge (hincoming record List.mem_cons_self))
      fun other hin => hincoming other (List.mem_cons_of_mem _ hin)

structure IsFreshLayer (unicode : UnicodeTable) (characterIds : CharacterIdMap) (today : UInt16)
    (records : List LearningRecord) : Prop where
  layer : IsLayer unicode characterIds (records.map LearningRecord.entry)
  fresh : ∀ record ∈ records, FreshRecord today record

theorem isFreshLayer_nil (today : UInt16) : IsFreshLayer unicode characterIds today [] :=
  ⟨isLayer_nil, fun _ hin => absurd hin List.not_mem_nil⟩

theorem IsFreshLayer.sublist {today : UInt16} {records kept : List LearningRecord}
    (h : IsFreshLayer unicode characterIds today records) (hkept : kept.Sublist records) :
    IsFreshLayer unicode characterIds today kept :=
  ⟨h.layer.sublist (hkept.map _), fun record hin => h.fresh record (hkept.subset hin)⟩

theorem IsLayer.refresh {records : List LearningRecord}
    (h : IsLayer unicode characterIds (records.map LearningRecord.entry)) (today : UInt16) :
    IsFreshLayer unicode characterIds today (decay records today) := by
  refine ⟨h.sublist (decay_entries records today), ?_⟩
  intro record hin
  obtain ⟨-, -, -, hfresh⟩ := mem_decay hin
  exact hfresh

theorem IsLayer.saved {state : LearningState} {records : List LearningRecord}
    (h : IsLayer unicode characterIds (records.map LearningRecord.entry)) :
    IsFreshLayer unicode characterIds state.today (state.savedRecords records) := by
  have hdecayed := h.refresh state.today
  have hsorted : IsFreshLayer unicode characterIds state.today
      ((decay records state.today).mergeSort fun first second =>
        decide (second.lastUsedDay ≤ first.lastUsedDay)) :=
    ⟨hdecayed.layer.perm ((List.mergeSort_perm _ _).map _), fun record hin =>
      hdecayed.fresh record (List.mem_mergeSort.mp hin)⟩
  exact hsorted.sublist (List.take_sublist _ _)

end

end BeanKey.Learning
