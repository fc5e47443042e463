import BeanKey.Learning.Indexed

/-! How often one acceptance counts the records of what it teaches. -/
namespace BeanKey.Learning
open BeanKey.Lattice
open BeanKey.Dictionary (CharacterIdMap FloatFormat)

/-- How often the pending record of the entry has been used; 0 if there is none. -/
def LearningStore.useCount (store : LearningStore) (entry : DictionaryEntry) : Nat :=
  ((store.state.temporary.find? fun record => sameEntry record.entry entry).map fun record =>
    record.count.toNat).getD 0

/-- One call raises no count by more than one, up to the cap. -/
structure CountsOnce (before after : LearningStore) : Prop where
  persisted : after.state.persisted = before.state.persisted
  pending : ∀ entry, after.useCount entry = before.useCount entry ∨
    after.useCount entry = min 255 (before.useCount entry + 1)

def timesTaught (unicode : UnicodeTable) (characterIds : CharacterIdMap)
    (taught : List DictionaryEntry) (entry : DictionaryEntry) : Nat :=
  taught.countP fun other =>
    validLearningEntry unicode other characterIds && sameEntry other entry

section
variable {unicode : UnicodeTable} {store : LearningStore}

theorem find_sameEntry {records : List LearningRecord}
    (h : (records.map LearningRecord.entry).Pairwise fun first second =>
      sameEntry first second = false)
    {record : LearningRecord} (hin : record ∈ records) {entry : DictionaryEntry}
    (hsame : sameEntry record.entry entry = true) :
    records.find? (fun record => sameEntry record.entry entry) = some record := by
  induction records with
  | nil => exact absurd hin List.not_mem_nil
  | cons first rest ih =>
    obtain ⟨hfirst, hrest⟩ := List.pairwise_cons.mp h
    cases List.mem_cons.mp hin with
    | inl heq =>
      rw [List.find?_cons_of_pos (heq ▸ hsame), heq]
    | inr hlater =>
      have hdiffer := hfirst _ (List.mem_map_of_mem hlater)
      have hother : ¬sameEntry first.entry entry = true := by
        intro hboth
        rw [sameEntry_congr hboth, sameEntry_comm, hsame] at hdiffer
        exact absurd hdiffer (by decide)
      rw [List.find?_cons_of_neg (by simpa using hother)]
      exact ih hrest hlater

theorem find_sameEntry_congr {records others : List LearningRecord}
    (h : (records.map LearningRecord.entry).Pairwise fun first second =>
      sameEntry first second = false)
    {entry : DictionaryEntry} (hiff : ∀ record, sameEntry record.entry entry = true →
      (record ∈ records ↔ record ∈ others)) :
    records.find? (fun record => sameEntry record.entry entry) =
      others.find? fun record => sameEntry record.entry entry := by
  cases hfound : others.find? fun record => sameEntry record.entry entry with
  | none =>
    refine List.find?_eq_none.mpr fun record hin hsame => ?_
    exact List.find?_eq_none.mp hfound record ((hiff record hsame).mp hin) hsame
  | some record =>
    have hsame := List.find?_some hfound
    exact find_sameEntry h ((hiff record hsame).mpr (List.mem_of_find?_eq_some hfound)) hsame

theorem useCount_le (store : LearningStore) (entry : DictionaryEntry) :
    store.useCount entry ≤ 255 := by
  rw [LearningStore.useCount]
  cases store.state.temporary.find? fun record => sameEntry record.entry entry with
  | none => exact Nat.zero_le _
  | some record => exact Nat.le_of_lt_succ record.count.toNat_lt

theorem saturatingAddCount_one (count : UInt8) :
    (saturatingAddCount count 1).toNat = min 255 (count.toNat + 1) := by
  rw [saturatingAddCount, UInt8.toNat_ofNat_of_lt' (by rw [UInt8.size]; omega), Nat.min_comm]
  rfl

/-- One entry is counted once, if it is valid. -/
theorem Indexed.useCount_memorize (h : Indexed unicode store) (taught entry : DictionaryEntry) :
    (store.memorize unicode taught).useCount entry =
      if validLearningEntry unicode taught store.state.characterIds && sameEntry taught entry then
        min 255 (store.useCount entry + 1)
      else store.useCount entry := by
  have hafter := (h.memorize taught).distinct
  cases memorize_cases h.indexes taught with
  | refused hinvalid hsame =>
    rw [← hsame, hinvalid]
    rfl
  | @counted hvalid index record hrecord hsame _ hmemorized =>
    rw [hmemorized] at hafter ⊢
    rw [hvalid, Bool.true_and]
    split
    · next htaught =>
      have hold : sameEntry record.entry entry = true := by rw [sameEntry_congr hsame, htaught]
      have hnew : LearningStore.countAgain store.state.today taught record ∈
          store.state.temporary.set index
            (LearningStore.countAgain store.state.today taught record) :=
        List.mem_set (List.getElem?_eq_some_iff.mp hrecord).1 _
      rw [LearningStore.useCount, LearningStore.useCount,
        find_sameEntry h.distinct (List.mem_of_getElem? hrecord) hold,
        find_sameEntry hafter hnew htaught]
      exact saturatingAddCount_one record.count
    · next htaught =>
      have hold : ¬sameEntry record.entry entry = true := by rwa [sameEntry_congr hsame]
      rw [LearningStore.useCount, LearningStore.useCount, find_sameEntry_congr hafter]
      intro other hother
      constructor
      · intro hin
        cases List.mem_or_eq_of_mem_set hin with
        | inl hin => exact hin
        | inr heq =>
          rw [heq] at hother
          exact absurd hother htaught
      · intro hin
        obtain ⟨place, hplace⟩ := List.mem_iff_getElem?.mp hin
        refine List.mem_of_getElem? (i := place) ?_
        rw [List.getElem?_set_ne, hplace]
        rintro rfl
        rw [hplace] at hrecord
        exact hold (Option.some.inj hrecord ▸ hother)
  | added hvalid hids hnew hmemorized =>
    rw [hmemorized] at hafter ⊢
    rw [hvalid, Bool.true_and]
    split
    · next htaught =>
      have hnone : store.state.temporary.find? (fun record => sameEntry record.entry entry) =
          none := by
        refine List.find?_eq_none.mpr fun record hin hsame => ?_
        have hdiffer := hnew record hin
        rw [sameEntry_congr hsame, sameEntry_comm, htaught] at hdiffer
        exact absurd hdiffer (by decide)
      rw [LearningStore.useCount, LearningStore.useCount, hnone,
        find_sameEntry hafter (List.mem_append_right _ List.mem_cons_self) htaught]
      rfl
    · next htaught =>
      rw [LearningStore.useCount, LearningStore.useCount, find_sameEntry_congr hafter]
      intro other hother
      rw [List.mem_append, List.mem_singleton]
      refine or_iff_left ?_
      rintro rfl
      exact htaught hother

theorem Indexed.useCount_foldl (h : Indexed unicode store) (taught : List DictionaryEntry)
    (entry : DictionaryEntry) :
    (taught.foldl (LearningStore.memorize unicode) store).useCount entry =
      if timesTaught unicode store.state.characterIds taught entry = 0 then store.useCount entry
      else min 255 (store.useCount entry + timesTaught unicode store.state.characterIds
        taught entry) := by
  induction taught generalizing store with
  | nil => rfl
  | cons first rest ih =>
    have hle := useCount_le store entry
    rw [List.foldl_cons, ih (h.memorize first), h.useCount_memorize,
      LearningStore.memorize_characterIds,
      timesTaught, timesTaught, List.countP_cons]
    split <;> split <;> split <;> omega

end

/-! ### Clauses -/

/-- The clauses begin with the first entry and end before the place of the next one. -/
def Spans (ranges : List (Nat × Nat)) (index : Nat) : Prop :=
  ranges.head?.map Prod.fst = some 0 ∧ ranges.getLast?.map Prod.snd = some index

theorem modify_last {α : Type} (f : α → α) (front : List α) (last : α) :
    (front ++ [last]).modify front.length f = front ++ [f last] := by
  induction front with
  | nil => rfl
  | cons first rest ih => simp [ih]

theorem clauseRangesFrom_cons (previous : Option DictionaryEntry) (ranges : List (Nat × Nat))
    (index : Nat) (entry : DictionaryEntry) (rest : List DictionaryEntry) :
    ∃ starts : Bool, clauseRangesFrom previous ranges index (entry :: rest) =
      clauseRangesFrom (some entry)
        (if starts then ranges ++ [(index, index + 1)]
          else ranges.modify (ranges.length - 1) fun (start, _) => (start, index + 1))
        (index + 1) rest := by
  cases previous with
  | none => exact ⟨true, rfl⟩
  | some previous => exact ⟨isClause previous.rightId entry.leftId, rfl⟩

theorem clauseRangesFrom_spans {previous : Option DictionaryEntry} {ranges : List (Nat × Nat)}
    {index : Nat} (h : Spans ranges index) (entries : List DictionaryEntry) :
    Spans (clauseRangesFrom previous ranges index entries) (index + entries.length) := by
  induction entries generalizing previous ranges index with
  | nil => exact h
  | cons entry rest ih =>
    obtain ⟨starts, hstep⟩ := clauseRangesFrom_cons previous ranges index entry rest
    rw [hstep, List.length_cons, Nat.add_comm rest.length, ← Nat.add_assoc]
    apply ih
    cases ranges using List.reverseRecOn with
    | nil => exact absurd h.1 (by simp)
    | append_singleton front last =>
      have hhead := h.1
      cases starts with
      | true =>
        refine ⟨?_, by simp⟩
        rw [if_pos rfl, List.head?_append, Option.or_of_isSome (by simp)]
        exact hhead
      | false =>
        rw [if_neg (by decide), List.length_append, List.length_singleton, Nat.add_sub_cancel,
          modify_last]
        refine ⟨?_, by simp⟩
        cases front with
        | nil => simpa using hhead
        | cons first others => exact hhead

theorem learnedClauseRanges_spans {entries : List DictionaryEntry} (h : entries ≠ []) :
    Spans (learnedClauseRanges entries) entries.length := by
  cases entries with
  | nil => exact absurd rfl h
  | cons entry rest =>
    have hspans : Spans (clauseRangesFrom (some entry) [(0, 1)] 1 rest) (1 + rest.length) :=
      clauseRangesFrom_spans ⟨rfl, rfl⟩ rest
    rw [List.length_cons, Nat.add_comm]
    exact hspans

/-- Of two clauses, the pair is the whole. -/
theorem learnedClauseEntries_two {entries : List DictionaryEntry}
    (h : (learnedClauseRanges entries).length = 2) :
    learnedClauseEntriesAfter entries 0 = (joinEntries entries).toList := by
  have hne : entries ≠ [] := by
    rintro rfl
    exact absurd h (by decide)
  obtain ⟨hstart, hend⟩ := learnedClauseRanges_spans hne
  obtain ⟨first, second, hranges⟩ := List.length_eq_two.mp h
  rw [learnedClauseEntriesAfter, hranges]
  rw [hranges] at hstart hend
  have hfirst : first.1 = 0 := by simpa using hstart
  have hsecond : second.2 = entries.length := by simpa using hend
  have hpos : 0 < second.2 := by
    rw [hsecond]
    exact List.length_pos_of_ne_nil hne
  have hall : (entries.take second.2).drop first.1 = entries := by
    rw [hfirst, hsecond, List.take_length, List.drop_zero]
  cases hjoined : joinEntries entries <;> simp [hpos, hall, hjoined]

theorem one_lt_length_of_clauses {entries : List DictionaryEntry}
    (h : (learnedClauseRanges entries).length = 2) : 1 < entries.length := by
  match entries with
  | [] => exact absurd h (by decide)
  | [_] => exact absurd h (by decide : ¬1 = 2)
  | _ :: _ :: _ => exact Nat.succ_lt_succ (Nat.succ_pos _)

section
variable {unicode : UnicodeTable}

theorem two_le_timesTaught {entries : List DictionaryEntry} {characterIds : CharacterIdMap}
    (h : (learnedClauseRanges entries).length = 2) {whole : DictionaryEntry}
    (hwhole : joinEntries entries = some whole)
    (hvalid : validLearningEntry unicode whole characterIds = true) :
    2 ≤ timesTaught unicode characterIds (learnedEntries entries) whole := by
  have hself : sameEntry whole whole = true := sameEntry_iff.mpr ⟨rfl, rfl, rfl, rfl⟩
  rw [timesTaught, learnedEntries, taughtEntries, List.nil_append, List.length_nil,
    learnedClauseEntries_two h, joinWhole, if_pos (one_lt_length_of_clauses h), hwhole,
    List.countP_append, List.countP_append]
  simp [hvalid, hself]

/-- One acceptance counts every record once, in every history, exactly if no record is taught twice
that the store has not counted 254 times before; of two clauses it is. -/
theorem learn_counts_once {format : FloatFormat} {characterIds : CharacterIdMap} {world : World}
    (h : Reached unicode format characterIds (fun _ _ _ => True) world) (today : UInt16)
    (entries : List DictionaryEntry) :
    let locked := world.store.refreshDay unicode today
    let times := timesTaught unicode locked.state.characterIds (learnedEntries entries)
    (CountsOnce locked (locked.learn unicode (learnedEntries entries)) ↔
      (locked.state.mode.updatesMemory = true →
        ∀ entry, times entry ≤ 1 ∨ 254 ≤ locked.useCount entry)) ∧
    ((learnedClauseRanges entries).length = 2 → ∀ whole, joinEntries entries = some whole →
      validLearningEntry unicode whole locked.state.characterIds = true → 2 ≤ times whole) := by
  intro locked times
  have hlocked : Indexed unicode locked := h.indexed.refreshDay today
  refine ⟨?_, fun htwo whole => two_le_timesTaught htwo⟩
  have hcount : locked.state.mode.updatesMemory = true → ∀ entry,
      (locked.learn unicode (learnedEntries entries)).useCount entry =
        if times entry = 0 then locked.useCount entry
        else min 255 (locked.useCount entry + times entry) := by
    intro hmode entry
    rw [LearningStore.learn, if_pos hmode]
    exact hlocked.useCount_foldl _ entry
  constructor
  · intro hcounts hmode entry
    have honce := hcounts.pending entry
    rw [hcount hmode entry] at honce
    split at honce
    · omega
    · omega
  · refine fun hwhen => ⟨?_, fun entry => ?_⟩
    · obtain ⟨temporary, hstate⟩ := @learn_keeps unicode locked (learnedEntries entries)
      rw [hstate]
    by_cases hmode : locked.state.mode.updatesMemory = true
    · have hle := useCount_le locked entry
      rw [hcount hmode entry]
      split
      · exact .inl rfl
      · cases hwhen hmode entry <;> omega
    · rw [LearningStore.learn, if_neg hmode]
      exact .inl rfl

end

theorem opened_reached : Reached .kana sampleFormat (learnedState []).characterIds
    (fun _ _ _ => True) ⟨.ofState .kana (learnedState []), fun _ => none⟩ := .opened opened_kana

def oneClause : List DictionaryEntry :=
  [kanaEntry ['亜'], { kanaEntry ['火'] with leftId := 100, rightId := 100 }]

/-- Both words and their text are learned. -/
theorem learn_counts_once_clause : CountsOnce
    ((LearningStore.ofState .kana (learnedState [])).refreshDay .kana 0)
    (((LearningStore.ofState .kana (learnedState [])).refreshDay .kana 0).learn .kana
      (learnedEntries oneClause)) := by
  refine (learn_counts_once opened_reached 0 oneClause).1.mpr fun _ entry => .inl ?_
  have hwords : ((learnedEntries oneClause).map DictionaryEntry.word).Nodup := by decide +kernel
  have honce := List.nodup_iff_count_le_one.mp hwords entry.word
  rw [List.count, List.countP_map] at honce
  -- entries that are the same have the same word
  refine (List.countP_mono_left fun taught _ htaught => ?_).trans honce
  have hsame := (Bool.and_eq_true_iff.mp htaught).2
  exact beq_iff_eq.mpr (sameEntry_iff.mp hsame).2.1

def clausePair : List DictionaryEntry := [kanaEntry ['亜'], kanaEntry ['胃']]

def joinedPair : DictionaryEntry :=
  { kanaEntry ['亜', '胃'] with ruby := ['ア', 'ア'], baseValue := -20 }

/-- Their text is learned for the first time with a count of two. -/
theorem clause_pair_counted_twice : ∃ store : LearningStore,
    Reached .kana sampleFormat (learnedState []).characterIds (fun _ _ _ => True)
      ⟨store, fun _ => none⟩ ∧ clausePair.Nodup ∧
    (store.refreshDay .kana 0).useCount joinedPair = 0 ∧
    ((store.refreshDay .kana 0).learn .kana (learnedEntries clausePair)).useCount joinedPair = 2 ∧
    ¬CountsOnce (store.refreshDay .kana 0)
      ((store.refreshDay .kana 0).learn .kana (learnedEntries clausePair)) := by
  have hrefreshed : (LearningStore.ofState .kana (learnedState [])).refreshDay .kana 0 =
      .ofState .kana (learnedState []) := refreshDay_self rfl
  have htimes : timesTaught .kana (learnedState []).characterIds (learnedEntries clausePair)
      joinedPair = 2 := by decide +kernel
  have hcount : ((LearningStore.ofState .kana (learnedState [])).learn .kana
      (learnedEntries clausePair)).useCount joinedPair = 2 := by
    have hmode : (LearningStore.ofState .kana (learnedState [])).state.mode.updatesMemory = true :=
      rfl
    rw [LearningStore.learn, if_pos hmode, opened_reached.indexed.useCount_foldl]
    change (if timesTaught .kana (learnedState []).characterIds _ _ = 0 then _ else
      min 255 (0 + timesTaught .kana (learnedState []).characterIds _ _)) = 2
    rw [htimes]
    rfl
  refine ⟨.ofState .kana (learnedState []), opened_reached, by decide +kernel, ?_⟩
  rw [hrefreshed]
  refine ⟨rfl, hcount, fun honce => ?_⟩
  have hpending := honce.pending joinedPair
  rw [hcount] at hpending
  exact absurd hpending (by decide)

end BeanKey.Learning
