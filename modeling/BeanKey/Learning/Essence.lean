import BeanKey.Learning.Consistent
import BeanKey.Learning.Shape

/-! What a record is apart from the value it was learned with: decays and lookups see no more. -/
namespace BeanKey.Learning
open BeanKey.Lattice
open BeanKey.Dictionary (CharacterIdMap FloatFormat)

/-! ### Decay, one day after another -/

structure NotAfter (day : UInt16) (record : LearningRecord) : Prop where
  used : record.lastUsedDay.toNat ≤ day.toNat
  updated : record.lastUpdatedDay.toNat ≤ day.toNat

theorem NotAfter.mono {day later : UInt16} (hday : day ≤ later) {record : LearningRecord}
    (h : NotAfter day record) : NotAfter later record :=
  ⟨h.used.trans (UInt16.le_iff_toNat_le.mp hday), h.updated.trans (UInt16.le_iff_toNat_le.mp hday)⟩

theorem halve_notAfter {day : UInt16} {record : LearningRecord} (h : NotAfter day record) :
    NotAfter day (halve day record) := by
  induction record using halve.induct day with
  | case1 record hlate ih =>
    rw [halve, if_pos hlate]
    refine ih ⟨h.used, ?_⟩
    have := day.toNat_lt
    simp only [saturatingAddDay, UInt16.toNat_ofNat']
    omega
  | case2 record hrecent =>
    rw [halve, if_neg hrecent]
    exact h

theorem halve_halve {day later : UInt16} (hday : day ≤ later) (record : LearningRecord) :
    halve later (halve day record) = halve later record := by
  have hle := UInt16.le_iff_toNat_le.mp hday
  induction record using halve.induct day with
  | case1 record hlate ih =>
    rw [halve.eq_def day, if_pos hlate, ih, halve.eq_def later record, if_pos (by omega)]
  | case2 record hrecent => rw [halve.eq_def day, if_neg hrecent]

theorem halve_zero {day : UInt16} {record : LearningRecord} (h : record.count = 0) :
    (halve day record).count = 0 := by
  induction record using halve.induct day with
  | case1 record hlate ih =>
    rw [halve, if_pos hlate]
    refine ih ?_
    dsimp only
    rw [h]
    rfl
  | case2 record hrecent =>
    rw [halve, if_neg hrecent]
    exact h

theorem decayRecord_of_notAfter {day : UInt16} {record : LearningRecord} (h : NotAfter day record) :
    decayRecord day record =
      if day.toNat - record.lastUsedDay.toNat ≥ 128 then none
      else if (halve day record).count > 0 then some (halve day record) else none := by
  have hpast : ¬(day < record.lastUsedDay ∨ day < record.lastUpdatedDay) := by
    rw [UInt16.lt_iff_toNat_lt, UInt16.lt_iff_toNat_lt]
    have hused := h.used
    have hupdated := h.updated
    omega
  rw [decayRecord, if_neg hpast]

theorem decayRecord_of_after {day : UInt16} {record : LearningRecord} (h : ¬NotAfter day record) :
    decayRecord day record =
      decayRecord day { record with lastUsedDay := day, lastUpdatedDay := day, count := 1 } := by
  have hahead : day < record.lastUsedDay ∨ day < record.lastUpdatedDay := by
    rw [UInt16.lt_iff_toNat_lt, UInt16.lt_iff_toNat_lt]
    by_contra hpast
    exact h ⟨by omega, by omega⟩
  have hstart : NotAfter day
      { record with lastUsedDay := day, lastUpdatedDay := day, count := 1 } :=
    ⟨Nat.le_refl _, Nat.le_refl _⟩
  rw [decayRecord_of_notAfter hstart, decayRecord, if_pos hahead]

/-- A decay on the way to a later day changes nothing. -/
theorem decayRecord_decayRecord {day later : UInt16} (hday : day ≤ later) {record : LearningRecord}
    (h : NotAfter day record) :
    (decayRecord day record).bind (decayRecord later) = decayRecord later record := by
  have hle := UInt16.le_iff_toNat_le.mp hday
  rw [decayRecord_of_notAfter h, decayRecord_of_notAfter (h.mono hday)]
  by_cases hold : day.toNat - record.lastUsedDay.toNat ≥ 128
  · rw [if_pos hold, if_pos (by omega)]
    rfl
  · rw [if_neg hold]
    by_cases hcount : (halve day record).count > 0
    · rw [if_pos hcount, Option.bind_some,
        decayRecord_of_notAfter ((halve_notAfter h).mono hday), halve_halve hday,
        (halve_keeps day record).2]
    · have hzero : (halve day record).count = 0 := by
        have := UInt8.lt_iff_toNat_lt.not.mp hcount
        exact UInt8.toNat_inj.mp (by simpa using this)
      have hlater : (halve later record).count = 0 := by
        rw [← halve_halve hday]
        exact halve_zero hzero
      rw [if_neg hcount, hlater]
      split <;> rfl

/-- A decayed record is not dated after the day, and stays as it is for that day. -/
theorem decayRecord_settled {day : UInt16} {record kept : LearningRecord}
    (h : decayRecord day record = some kept) :
    NotAfter day kept ∧ decayRecord day kept = some kept := by
  have hstart : ∃ start, NotAfter day start ∧ decayRecord day start = some kept := by
    by_cases hnot : NotAfter day record
    · exact ⟨record, hnot, h⟩
    · exact ⟨_, ⟨Nat.le_refl _, Nat.le_refl _⟩, (decayRecord_of_after hnot).symm.trans h⟩
  obtain ⟨start, hnot, hkept⟩ := hstart
  have hagain := decayRecord_decayRecord (UInt16.le_refl day) hnot
  rw [hkept, Option.bind_some] at hagain
  refine ⟨?_, hagain⟩
  rw [decayRecord_of_notAfter hnot] at hkept
  split at hkept
  · exact absurd hkept (by simp)
  · split at hkept
    · exact Option.some.inj hkept ▸ halve_notAfter hnot
    · exact absurd hkept (by simp)

theorem decay_decay {records : List LearningRecord} {day later : UInt16} (hday : day ≤ later)
    (h : ∀ record ∈ records, NotAfter day record) :
    decay (decay records day) later = decay records later := by
  rw [decay, decay, decay, List.filterMap_filterMap]
  exact List.filterMap_congr fun record hin => decayRecord_decayRecord hday (h record hin)

theorem decay_settled {records : List LearningRecord} {day : UInt16}
    (h : ∀ record ∈ records, decayRecord day record = some record) : decay records
    day = records := by
  induction records with
  | nil => rfl
  | cons record rest ih =>
    rw [decay, List.filterMap_cons, h record List.mem_cons_self]
    exact congrArg (record :: ·) (ih fun other hin => h other (List.mem_cons_of_mem _ hin))

/-! ### Essences -/

/-- The record without the value it was learned with, which no answer depends on. -/
def LearningRecord.essence (record : LearningRecord) : LearningRecord :=
  { record with entry := { record.entry with baseValue := 0, adjustment := 0, metadata := {} } }

def SameRecords (records others : List LearningRecord) : Prop :=
  (records.map LearningRecord.essence).Perm (others.map LearningRecord.essence)

theorem halve_essence (day : UInt16) (record : LearningRecord) :
    halve day record.essence = (halve day record).essence := by
  induction record using halve.induct day with
  | case1 record hlate ih =>
    rw [halve.eq_def day record, if_pos hlate, ← ih]
    exact (halve.eq_def day record.essence).trans (if_pos hlate)
  | case2 record hrecent =>
    rw [halve.eq_def day record, if_neg hrecent]
    exact (halve.eq_def day record.essence).trans (if_neg hrecent)

theorem decayRecord_essence (day : UInt16) (record : LearningRecord) :
    decayRecord day record.essence = (decayRecord day record).map LearningRecord.essence := by
  have hnot : ∀ {record : LearningRecord}, NotAfter day record →
      decayRecord day record.essence = (decayRecord day record).map LearningRecord.essence := by
    intro record h
    have hessence : NotAfter day record.essence := ⟨h.used, h.updated⟩
    rw [decayRecord_of_notAfter h, decayRecord_of_notAfter hessence, halve_essence]
    change (if day.toNat - record.lastUsedDay.toNat ≥ 128 then _ else
      if (halve day record).count > 0 then _ else _) = _
    split
    · rfl
    · split <;> rfl
  by_cases h : NotAfter day record
  · exact hnot h
  · have hessence : ¬NotAfter day record.essence := fun h' => h ⟨h'.used, h'.updated⟩
    have hstart := @hnot { record with lastUsedDay := day, lastUpdatedDay := day, count := 1 }
      ⟨Nat.le_refl _, Nat.le_refl _⟩
    rw [decayRecord_of_after h, decayRecord_of_after hessence]
    exact hstart

theorem decay_essence (records : List LearningRecord) (day : UInt16) :
    decay (records.map LearningRecord.essence) day =
      (decay records day).map LearningRecord.essence := by
  rw [decay, decay, List.filterMap_map, List.map_filterMap]
  exact List.filterMap_congr fun record _ => decayRecord_essence day record

namespace SameRecords
variable {records others third : List LearningRecord}

theorem refl (records : List LearningRecord) : SameRecords records records := List.Perm.refl _

theorem symm (h : SameRecords records others) : SameRecords others records := List.Perm.symm h

theorem trans (h : SameRecords records others) (h' : SameRecords others third) :
    SameRecords records third := List.Perm.trans h h'

theorem decay (h : SameRecords records others) (day : UInt16) :
    SameRecords (decay records day) (decay others day) := by
  rw [SameRecords, ← decay_essence, ← decay_essence]
  exact List.Perm.filterMap _ h

theorem filter (h : SameRecords records others) {p : LearningRecord → Bool}
    (hp : ∀ record, p record.essence = p record) :
    SameRecords (records.filter p) (others.filter p) := by
  have hfilter : ∀ records : List LearningRecord, (records.filter p).map LearningRecord.essence =
      (records.map LearningRecord.essence).filter p := by
    intro records
    rw [List.filter_map]
    exact congrArg _ (List.filter_congr fun record _ => (hp record).symm)
  rw [SameRecords, hfilter, hfilter]
  exact List.Perm.filter _ h

end SameRecords

/-! ### What a layer answers -/

structure Shown where
  ruby : Text
  word : Text
  leftId : Nat
  rightId : Nat
  meaningId : Nat
  value : ℚ

def shown (entry : DictionaryEntry) : Shown where
  ruby := entry.ruby
  word := entry.word
  leftId := entry.leftId
  rightId := entry.rightId
  meaningId := entry.meaningId
  value := entry.value

section
variable {unicode : UnicodeTable}

theorem learnedEntry_value (record : LearningRecord) :
    (LearningStore.learnedEntry unicode record).value =
      min 0 (learningValue unicode record.count record.entry.ruby) := by
  rw [DictionaryEntry.value, LearningStore.learnedEntry, Rounding.rounded_exact]
  dsimp only
  rw [add_sub_cancel]

theorem shown_essence (record : LearningRecord) :
    shown (LearningStore.learnedEntry unicode record.essence) =
      shown (LearningStore.learnedEntry unicode record) := by
  rw [shown, shown, learnedEntry_value, learnedEntry_value]
  rfl

theorem mapM_getElem? {records found : List LearningRecord} {positions : List Nat}
    (h : positions.mapM (fun index => records[index]?) = some found) :
    positions.filterMap (fun index => records[index]?) = found := by
  induction positions generalizing found with
  | nil => exact Option.some.inj h
  | cons position rest ih =>
    rw [List.mapM_cons] at h
    obtain ⟨record, hrecord, hrest⟩ := Option.bind_eq_some_iff.mp h
    obtain ⟨others, hothers, hfound⟩ := Option.bind_eq_some_iff.mp hrest
    obtain rfl := Option.some.inj hfound
    rw [List.filterMap_cons, hrecord, ih hothers]

theorem lookup_persisted {store : LearningStore} (h : Consistent unicode store)
    (hmode : store.state.mode.usesMemory = true) (htemporary : store.state.temporary = [])
    (kind : MatchKind) (ruby : Text) (maximumLength : Nat) :
    store.lookup unicode kind ruby maximumLength =
      some (((LearningStore.positions unicode store.state.characterIds
        store.persistedIndex.lookup kind
        ruby maximumLength).filterMap fun index => store.state.persisted[index]?).map
          (LearningStore.learnedEntry unicode)) := by
  have hnone : LearningStore.positions unicode store.state.characterIds
      store.temporaryIndex.lookup kind
      ruby maximumLength = [] := by
    have hbounds := h.sound.temporary.index.bounds kind ruby maximumLength
    rw [htemporary] at hbounds
    exact List.eq_nil_iff_forall_not_mem.mpr fun position hin =>
      absurd (hbounds position hin) (Nat.not_lt_zero _)
  obtain ⟨found, hfound⟩ := exists_records (h.sound.persisted.index.bounds kind ruby maximumLength)
  rw [LearningStore.lookup, if_pos hmode, hfound, hnone, mapM_getElem? hfound]
  simp

theorem lookup_same {store other : LearningStore} (h : Consistent unicode store)
    (h' : Consistent unicode other)
    (hcharacters : other.state.characterIds = store.state.characterIds)
    (hmode : store.state.mode.usesMemory = true) (hmode' : other.state.mode.usesMemory = true)
    (htemporary : store.state.temporary = []) (htemporary' : other.state.temporary = [])
    (hsame : SameRecords store.state.persisted other.state.persisted)
    (kind : MatchKind) (ruby : Text) (maximumLength : Nat) :
    ∃ found found', store.lookup unicode kind ruby maximumLength = some found ∧
      other.lookup unicode kind ruby maximumLength = some found' ∧
        (found.map shown).Perm (found'.map shown) := by
  refine ⟨_, _, lookup_persisted h hmode htemporary kind ruby maximumLength,
    lookup_persisted h' hmode' htemporary' kind ruby maximumLength, ?_⟩
  have hshown : ∀ records : List LearningRecord,
      (records.map (LearningStore.learnedEntry unicode)).map shown =
        (records.map LearningRecord.essence).map fun record =>
          shown (LearningStore.learnedEntry unicode record) := by
    intro records
    rw [List.map_map, List.map_map]
    exact List.map_congr_left fun record _ => (shown_essence record).symm
  rw [hshown, hshown, hcharacters, h.persistedIndex, h'.persistedIndex, hcharacters]
  refine List.Perm.map _ ?_
  rw [LearningStore.positions, LearningStore.positions]
  split
  · exact List.Perm.refl _
  · cases LearningStore.lookupIds store.state.characterIds kind
      ((graphemes unicode ruby).take maximumLength) with
    | none => exact List.Perm.refl _
    | some ids =>
      exact lookup_related LearningRecord.essence (fun ids => hsame.filter fun _ => rfl) ids kind

end

end BeanKey.Learning
