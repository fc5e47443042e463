import BeanKey.Learning.Trip

/-! Daily refreshes: what they leave of a layer is what the last one alone leaves of it. -/
namespace BeanKey.Learning
open BeanKey.Lattice
open BeanKey.Dictionary (CharacterIdMap)

theorem decay_notAfter {records : List LearningRecord} {day : UInt16} :
    ∀ record ∈ decay records day, NotAfter day record := by
  intro record hin
  obtain ⟨_, -, hkept⟩ := List.mem_filterMap.mp hin
  exact (decayRecord_settled hkept).1

theorem le_getLastD {day : UInt16} {days : List UInt16} (h : (day :: days).Pairwise (· ≤ ·)) :
    day ≤ days.getLastD day := by
  cases List.mem_cons.mp (List.getLastD_mem_cons (l := days) (a := day)) with
  | inl heq => exact UInt16.le_of_eq heq.symm
  | inr hin => exact (List.pairwise_cons.mp h).1 _ hin

namespace LearningStore

def refreshDays (unicode : UnicodeTable) (store : LearningStore) (days : List UInt16) :
    LearningStore :=
  days.foldl (refreshDay unicode) store

def Dated (store : LearningStore) : Prop :=
  ∀ record ∈ store.state.persisted ++ store.state.temporary, NotAfter store.state.today record

variable {unicode : UnicodeTable} {store : LearningStore}

theorem refreshDay_next {day : UInt16} (hne : store.state.today ≠ day) :
    store.refreshDay unicode day =
      let store := store.rebuild unicode (decay store.state.persisted day)
        (decay store.state.temporary day)
      { store with state := { store.state with today := day } } := if_neg hne

theorem Dated.refreshDay (h : store.Dated) (day : UInt16) :
    (store.refreshDay unicode day).Dated := by
  by_cases hsame : store.state.today = day
  · rw [refreshDay_self hsame]
    exact h
  · rw [refreshDay_next hsame]
    intro record hin
    cases List.mem_append.mp hin with
    | inl hpersisted => exact decay_notAfter record hpersisted
    | inr htemporary => exact decay_notAfter record htemporary

theorem Dated.refreshDay_refreshDay (h : store.Dated) {day later : UInt16}
    (hday : store.state.today ≤ day) (hlater : day ≤ later) :
    (store.refreshDay unicode day).refreshDay unicode later = store.refreshDay unicode later := by
  by_cases hfirst : store.state.today = day
  · rw [refreshDay_self hfirst]
  · by_cases hsecond : day = later
    · rw [← hsecond, refreshDay_self (refreshDay_state store day).1]
    · have hne : store.state.today ≠ later := by
        intro heq
        exact hfirst (UInt16.le_antisymm hday (heq ▸ hlater))
      have hnot : ∀ record ∈ store.state.persisted ++ store.state.temporary, NotAfter day record :=
        fun record hin => (h record hin).mono hday
      have hpersisted := decay_decay hlater fun record hin =>
        hnot record (List.mem_append_left _ hin)
      have htemporary := decay_decay hlater fun record hin =>
        hnot record (List.mem_append_right _ hin)
      rw [refreshDay_next hfirst, refreshDay_next hsecond, refreshDay_next hne]
      simp only [rebuild, hpersisted, htemporary]

/-- The refreshes of a clock that does not go back are the last one. -/
theorem Dated.refreshDays (h : store.Dated) {days : List UInt16}
    (hdays : (store.state.today :: days).Pairwise (· ≤ ·)) :
    store.refreshDays unicode days =
      store.refreshDay unicode (days.getLastD store.state.today) := by
  induction days generalizing store with
  | nil => exact (refreshDay_self rfl).symm
  | cons day days ih =>
    obtain ⟨hfirst, hrest⟩ := List.pairwise_cons.mp hdays
    have htoday := (@refreshDay_state unicode store day).1
    have hrun := ih (h.refreshDay day) (by rwa [htoday])
    rw [htoday] at hrun
    rw [List.getLastD_cons]
    exact hrun.trans (h.refreshDay_refreshDay (hfirst day List.mem_cons_self) (le_getLastD hrest))

/-- What the refresh of a later day leaves of layers that were decayed on the store's day. -/
theorem refreshDay_layers {persisted temporary : List LearningRecord}
    (hnot : ∀ record ∈ persisted ++ temporary, NotAfter store.state.today record)
    (hpersisted : store.state.persisted = decay persisted store.state.today)
    (htemporary : store.state.temporary = decay temporary store.state.today) {day : UInt16}
    (hday : store.state.today ≤ day) :
    (store.refreshDay unicode day).state.persisted = decay persisted day ∧
      (store.refreshDay unicode day).state.temporary = decay temporary day := by
  by_cases hsame : store.state.today = day
  · rw [refreshDay_self hsame, ← hsame]
    exact ⟨hpersisted, htemporary⟩
  · rw [refreshDay_next hsame]
    constructor
    · show decay store.state.persisted day = _
      rw [hpersisted, decay_decay hday fun record hin => hnot record (List.mem_append_left _ hin)]
    · show decay store.state.temporary day = _
      rw [htemporary, decay_decay hday fun record hin => hnot record (List.mem_append_right _ hin)]

end LearningStore

/-- A decay on the way to a later one changes nothing, of one record and of a store that is
refreshed day by day: its layers are those of the last day. -/
theorem decay_once (unicode : UnicodeTable) :
    (∀ (record : LearningRecord) (first second : UInt16), NotAfter first record → first ≤ second →
      (decayRecord first record).bind (decayRecord second) = decayRecord second record) ∧
    ∀ (store : LearningStore) (days : List UInt16), store.Dated →
      (store.state.today :: days).Pairwise (· ≤ ·) →
      let after := store.refreshDays unicode days
      let last := days.getLastD store.state.today
      after = store.refreshDay unicode last ∧
        ∀ persisted temporary : List LearningRecord,
          (∀ record ∈ persisted ++ temporary, NotAfter store.state.today record) →
          store.state.persisted = decay persisted store.state.today →
          store.state.temporary = decay temporary store.state.today →
          after.state.persisted = decay persisted last ∧
            after.state.temporary = decay temporary last := by
  refine ⟨fun record first second hnot hle => decayRecord_decayRecord hle hnot, ?_⟩
  intro store days hdated hdays after last
  have hafter : after = store.refreshDay unicode last := hdated.refreshDays hdays
  refine ⟨hafter, fun persisted temporary hnot hpersisted htemporary => ?_⟩
  rw [hafter]
  exact LearningStore.refreshDay_layers hnot hpersisted htemporary (le_getLastD hdays)

def usedRecord : LearningRecord := { kanaRecord ['亜'] with count := 8 }

def usedStore : LearningStore := .ofState .kana
  { characterIds := ⟨[], by decide⟩
    mode := .inputAndOutput
    maxCount := 1
    today := 0
    persisted := [usedRecord]
    temporary := [] }

theorem decay_once_used :
    (decayRecord 40 usedRecord).bind (decayRecord 80) = decayRecord 80 usedRecord ∧
      usedStore.refreshDays .kana [40, 80] = usedStore.refreshDay .kana 80 := by
  have honce := decay_once .kana
  refine ⟨honce.1 usedRecord 40 80 ⟨by decide, by decide⟩ (by decide), ?_⟩
  have hdated : usedStore.Dated := by
    intro record hin
    obtain rfl := List.mem_singleton.mp (show record ∈ [usedRecord] from hin)
    exact ⟨by decide, by decide⟩
  exact (honce.2 usedStore [40, 80] hdated (by decide)).1

end BeanKey.Learning
