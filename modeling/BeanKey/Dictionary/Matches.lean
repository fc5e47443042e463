import BeanKey.Dictionary.Store

/-! The matches of a reading, by the exact lookups of its beginnings. -/
namespace BeanKey.Dictionary
open BeanKey.Lattice

section
variable (format : FloatFormat) (characterIds : CharacterIdMap)
  (loading : Loading (Except DictionaryError)) (identifier : Text) (louds : Louds)

def entriesAt (key : List Grapheme) : Except DictionaryError (List DictionaryEntry) :=
  match key.mapM characterIds.id with
  | none => .ok []
  | some ids =>
    match louds.search ids with
    | none => .ok []
    | some node => loadEntries format loading identifier [node]

end

section
variable {unicode : UnicodeTable} {format : FloatFormat} {characterIds : CharacterIdMap}
  {loading : Loading (Except DictionaryError)} {identifier : Text} {louds : Louds}

theorem Louds.search_append (louds : Louds) (ids more : List UInt8) :
    louds.search (ids ++ more) = (louds.search ids).bind fun node =>
    louds.searchFrom node more := by
  rw [Louds.search, Louds.searchFrom, List.foldlM_append]
  rfl

theorem mapM_id_append (key more : List Grapheme) :
    (key ++ more).mapM characterIds.id =
      (key.mapM characterIds.id).bind fun ids => (more.mapM characterIds.id).map (ids ++ ·) := by
  rw [List.mapM_append]
  cases key.mapM characterIds.id with
  | none => rfl
  | some ids =>
    cases more.mapM characterIds.id with
    | none => rfl
    | some rest => rfl

/-- Where a key leads nowhere, nothing behind it does. -/
theorem entriesAt_append {key : List Grapheme} (more : List Grapheme)
    (h : ∀ ids, key.mapM characterIds.id = some ids → louds.search ids = none) :
    entriesAt format characterIds loading identifier louds (key ++ more) = .ok [] := by
  rw [entriesAt, mapM_id_append]
  cases hkey : key.mapM characterIds.id with
  | none => rfl
  | some ids =>
    cases more.mapM characterIds.id with
    | none => rfl
    | some rest => simp [Louds.search_append, h ids hkey]

theorem exactMatch_take {ruby : Text} {count : Nat} {tree : Option Louds}
    (hhead : (graphemes unicode ruby).head? = some identifier) (hpos : 0 < count)
    (htree : loading.loadLouds identifier = .ok tree) :
    exactMatch unicode format characterIds loading ((graphemes unicode ruby).take count).flatten =
      tree.elim (.ok []) fun louds =>
        entriesAt format characterIds loading identifier louds
          ((graphemes unicode ruby).take count) := by
  have htake : graphemes unicode ((graphemes unicode ruby).take count).flatten =
      (graphemes unicode ruby).take count := by
    simpa using graphemes_take_drop unicode ruby 0 count
  have hfirst : ((graphemes unicode ruby).take count).head? = some identifier := by
    rw [List.head?_take, if_neg (Nat.pos_iff_ne_zero.mp hpos), hhead]
  rw [exactMatch, lookupKey, htake, hfirst, CharacterIdMap.encode, htake]
  unfold entriesAt
  cases ((graphemes unicode ruby).take count).mapM characterIds.id with
  | none => cases tree <;> rfl
  | some ids =>
    simp only [Option.bind_some, pure, htree, bind, Except.bind]
    cases tree <;> rfl

theorem mem_extendMatch {before rest : List Grapheme} {ids : List UInt8}
    {found : List DictionaryMatch} (hbefore : before.mapM characterIds.id = some ids)
    (h : extendMatch format characterIds loading identifier louds rest before.length
      ids = .ok found) :
    (found.map DictionaryMatch.surfaceEnd).Pairwise (· < ·) ∧
    ∀ count entries, (⟨count, entries⟩ : DictionaryMatch) ∈ found ↔
      before.length < count ∧ count ≤ (before ++ rest).length ∧
      entriesAt format characterIds loading identifier louds ((before ++ rest).take count) =
        .ok entries ∧ entries ≠ [] := by
  induction rest generalizing before ids found with
  | nil =>
    cases h
    refine ⟨.nil, fun count entries => iff_of_false (by simp) ?_⟩
    rintro ⟨hlt, hle, -⟩
    rw [List.append_nil] at hle
    omega
  | cons grapheme rest ih =>
    have hjoin : before ++ grapheme :: rest = (before ++ [grapheme]) ++ rest := by simp
    have hlength : (before ++ [grapheme]).length = before.length + 1 := by simp
    -- Behind a grapheme that leads nowhere there is nothing to find.
    have hstuck (hnone : ∀ ids, (before ++ [grapheme]).mapM characterIds.id = some ids →
        louds.search ids = none) (count : Nat) (entries : List DictionaryEntry)
        (hlt : before.length < count)
        (hentries : entriesAt format characterIds loading identifier louds
          ((before ++ grapheme :: rest).take count) = .ok entries) : entries = [] := by
      obtain ⟨more, rfl⟩ := Nat.exists_eq_add_of_lt hlt
      rw [hjoin, show before.length + more + 1 = (before ++ [grapheme]).length + more by omega,
        List.take_length_add_append, entriesAt_append _ hnone] at hentries
      exact (Except.ok.inj hentries).symm
    have hempty (hnone : ∀ ids, (before ++ [grapheme]).mapM characterIds.id = some ids →
        louds.search ids = none) (count : Nat) (entries : List DictionaryEntry) :
        (⟨count, entries⟩ : DictionaryMatch) ∈ ([] : List DictionaryMatch) ↔
          before.length < count ∧ count ≤ (before ++ grapheme :: rest).length ∧
          entriesAt format characterIds loading identifier louds
            ((before ++ grapheme :: rest).take count) = .ok entries ∧ entries ≠ [] := by
      refine iff_of_false (by simp) ?_
      rintro ⟨hlt, -, hentries, hne⟩
      exact hne (hstuck hnone count entries hlt hentries)
    have hids : (before ++ [grapheme]).mapM characterIds.id =
        (characterIds.id grapheme).map fun id => ids ++ [id] := by
      rw [mapM_id_append, hbefore]
      simp only [List.mapM_cons, List.mapM_nil, Option.bind_some]
      cases characterIds.id grapheme <;> rfl
    rw [extendMatch] at h
    cases hid : characterIds.id grapheme with
    | none =>
      rw [hid] at h hids
      cases h
      exact ⟨.nil, hempty (by simp [hids])⟩
    | some id =>
      rw [hid] at h hids
      dsimp only at h
      cases hsearch : louds.search (ids ++ [id]) with
      | none =>
        rw [hsearch] at h
        cases h
        refine ⟨.nil, hempty fun other hother => ?_⟩
        rw [hids, Option.map_some, Option.some.injEq] at hother
        rw [← hother, hsearch]
      | some node =>
        rw [hsearch] at h
        dsimp only at h
        cases hentries : loadEntries format loading identifier [node] with
        | error error =>
          rw [hentries] at h
          cases h
        | ok entries =>
          cases houtput : extendMatch format characterIds loading identifier louds rest
              (before.length + 1) (ids ++ [id]) with
          | error error =>
            rw [hentries, houtput] at h
            cases h
          | ok output =>
            have hfound : found =
                if entries = [] then output else ⟨before.length + 1, entries⟩ :: output := by
              rw [hentries, houtput] at h
              exact (Except.ok.inj h).symm
            obtain ⟨hsorted, hbehind⟩ := ih hids (hlength ▸ houtput)
            rw [hlength, ← hjoin] at hbehind
            have hhere : entriesAt format characterIds loading identifier louds
                ((before ++ grapheme :: rest).take (before.length + 1)) = .ok entries := by
              rw [hjoin, ← hlength, List.take_left' rfl, entriesAt, hids]
              simp only [Option.map_some, hsearch, hentries]
            have hlater {longer : DictionaryMatch} (hin : longer ∈ output) :
                before.length + 1 < longer.surfaceEnd := ((hbehind _ longer.entries).mp hin).1
            constructor
            · rw [hfound]
              split
              · exact hsorted
              · refine List.pairwise_cons.mpr ⟨fun place hplace => ?_, hsorted⟩
                obtain ⟨longer, hin, rfl⟩ := List.mem_map.mp hplace
                exact hlater hin
            · intro count other
              by_cases hcount : count = before.length + 1
              · subst hcount
                have hnot : (⟨before.length + 1, other⟩ : DictionaryMatch) ∉ output :=
                  fun hin => Nat.lt_irrefl _ (hlater hin)
                rw [hhere, hfound]
                split
                · next hnone => simp [hnot, hnone, eq_comm]
                · next hsome =>
                  simp only [List.mem_cons, DictionaryMatch.mk.injEq, true_and, hnot, or_false]
                  constructor
                  · rintro rfl
                    exact ⟨Nat.lt_succ_self _, by simp, rfl, hsome⟩
                  · exact fun hsame => (Except.ok.inj hsame.2.2.1).symm
              · have hmember : (⟨count, other⟩ : DictionaryMatch) ∈ found ↔
                    (⟨count, other⟩ : DictionaryMatch) ∈ output := by
                  rw [hfound]
                  split
                  · rfl
                  · simp [hcount]
                rw [hmember, hbehind count other]
                have hlt : before.length + 1 < count ↔ before.length < count := by omega
                rw [hlt]

/-- A lookup that finds something has a tree for the first grapheme of the reading. -/
theorem matchesFromStart_tree {ruby : Text} {maximumLength : Nat} {found : List DictionaryMatch}
    (h : matchesFromStart unicode format characterIds loading ruby maximumLength = .ok found)
    (hne : found ≠ []) : ∃ identifier louds, loading.loadLouds identifier = .ok (some louds) ∧
      extendMatch format characterIds loading identifier louds
        ((graphemes unicode ruby).take maximumLength) 0 [] = .ok found := by
  rw [matchesFromStart] at h
  cases hhead : (graphemes unicode ruby).head? with
  | none =>
    rw [hhead] at h
    exact absurd (Except.ok.inj h).symm hne
  | some identifier =>
    rw [hhead] at h
    cases htree : loading.loadLouds identifier with
    | error error => simp [htree, bind, Except.bind] at h
    | ok tree =>
      simp only [htree, bind, Except.bind] at h
      cases tree with
      | none => exact absurd (Except.ok.inj h).symm hne
      | some louds => exact ⟨identifier, louds, htree, h⟩

/-- The matches of a reading, each for the number of graphemes it takes, are what exact lookups of
its beginnings find, from the shortest on: where the search stops, no longer beginning is in the
dictionary. -/
theorem matches_are_exact {ruby : Text} {maximumLength : Nat} {found : List DictionaryMatch}
    (h : matchesFromStart unicode format characterIds loading ruby maximumLength = .ok found) :
    (found.map DictionaryMatch.surfaceEnd).Pairwise (· < ·) ∧
    ∀ count entries, (⟨count, entries⟩ : DictionaryMatch) ∈ found ↔
      0 < count ∧ count ≤ min maximumLength (graphemes unicode ruby).length ∧
      exactMatch unicode format characterIds loading
        ((graphemes unicode ruby).take count).flatten = .ok entries ∧ entries ≠ [] := by
  unfold matchesFromStart at h
  cases hhead : (graphemes unicode ruby).head? with
  | none =>
    rw [hhead] at h
    cases h
    rw [List.head?_eq_none_iff] at hhead
    refine ⟨.nil, fun count entries => iff_of_false (by simp) ?_⟩
    rintro ⟨hpos, hle, -⟩
    rw [hhead, List.length_nil, Nat.min_zero] at hle
    exact Nat.lt_irrefl _ (hpos.trans_le hle)
  | some identifier =>
    rw [hhead] at h
    cases hlouds : loading.loadLouds identifier with
    | error error => simp [hlouds, bind, Except.bind] at h
    | ok tree =>
      have hexact {count : Nat} (hpos : 0 < count) :=
        @exactMatch_take unicode format characterIds loading identifier ruby count tree hhead hpos
          hlouds
      cases tree with
      | none =>
        simp only [hlouds, bind, Except.bind, pure, Except.pure, Except.ok.injEq] at h
        subst h
        refine ⟨.nil, fun count entries => iff_of_false (by simp) ?_⟩
        rintro ⟨hpos, -, hentries, hne⟩
        rw [hexact hpos] at hentries
        exact hne (Except.ok.inj hentries).symm
      | some louds =>
        simp only [hlouds, bind, Except.bind] at h
        have hbefore : ([] : List Grapheme).mapM characterIds.id = some [] := rfl
        obtain ⟨hsorted, hmember⟩ := mem_extendMatch hbefore h
        refine ⟨hsorted, fun count entries => ?_⟩
        rw [hmember, List.nil_append, List.length_take, List.length_nil]
        refine and_congr_right fun hpos => and_congr_right fun hle => ?_
        rw [hexact hpos, List.take_take, Nat.min_eq_left (hle.trans (Nat.min_le_left _ _))]
        rfl

/-- Of `アア` only the first grapheme is in the dictionary. -/
theorem matches_are_exact_small : exactMatch .kana zeroFormat smallIds
    (smallFiles.loading zeroFormat) ((graphemes .kana ['ア', 'ア']).take 1).flatten =
      .ok [smallEntry] := by
  have hfound : matchesFromStart .kana zeroFormat smallIds (smallFiles.loading zeroFormat)
      ['ア', 'ア'] 20 = .ok [⟨1, [smallEntry]⟩] := by decide +kernel
  exact (((matches_are_exact hfound).2 1 [smallEntry]).mp (by simp)).2.2.1

/-- The dictionary on disk, as the lattice looks it up where no lookup fails. -/
def Files.lookups (unicode : UnicodeTable) (format : FloatFormat) (characterIds : CharacterIdMap)
    (files : Files) (learnedMatches : Text → Nat → List DictionaryEntry)
    (learnedExact : Text → List DictionaryEntry) : Lookups unicode where
  matchesFromStart ruby maximumLength :=
    (Dictionary.matchesFromStart unicode format characterIds (files.loading format) ruby
      maximumLength).toOption.getD []
  matches_within := by
    intro ruby maximumLength place hplace
    cases hfound : Dictionary.matchesFromStart unicode format characterIds
        (files.loading format) ruby
        maximumLength with
    | error error => simp [hfound, Except.toOption] at hplace
    | ok found =>
      have hin : place ∈ found := by simpa [hfound, Except.toOption] using hplace
      obtain ⟨identifier, louds, -, hextend⟩ :=
        matchesFromStart_tree hfound (List.ne_nil_of_mem hin)
      have hbefore : ([] : List Grapheme).mapM characterIds.id = some [] := rfl
      have hmember := ((mem_extendMatch hbefore hextend).2 _ place.entries).mp hin
      simpa using And.intro hmember.1 hmember.2.1
  exactMatch ruby :=
    (Dictionary.exactMatch unicode format characterIds (files.loading format) ruby).toOption.getD []
  connectionCost former latter :=
    (Dictionary.connectionCost (files.loading format) former latter).toOption.getD
      defaultConnectionCost
  learnedMatches := learnedMatches
  learnedExact := learnedExact

end

end BeanKey.Dictionary
