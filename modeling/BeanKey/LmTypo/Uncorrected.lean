import BeanKey.Input.Cursor
import BeanKey.LmTypo.Identity

/-! A hypothesis that takes no edit, where keys are typed in romaji: it has the typed keys, and
shows what the composing text shows. -/
namespace BeanKey.LmTypo
open BeanKey.Input BeanKey.Zenz Caching

/-! ### The composing text -/

section
variable {unicode : UnicodeTable} {tables : InputTableRegistry} {input : List InputElement}

def typedKeys (input : List InputElement) : List Grapheme :=
  input.filterMap fun element => element.piece.displayed

def TypedInRomaji (input : List InputElement) : Prop :=
  ∀ element ∈ input, element.inputStyle = .romanToKana ∧ element.piece ≠ .compositionSeparator

theorem exists_displayed {piece : InputPiece} (h : piece ≠ .compositionSeparator) :
    ∃ value, piece.displayed = some value := by
  cases piece with
  | character value => exact ⟨value, rfl⟩
  | compositionSeparator => exact absurd rfl h
  | key intention input modifiers => exact ⟨intention.getD input, rfl⟩

theorem typedKeys_concat (input : List InputElement) {element : InputElement} {value : Grapheme}
    (h : element.piece.displayed = some value) :
    typedKeys (input ++ [element]) = typedKeys input ++ [value] := by
  have hlast : typedKeys [element] = [value] := by simp [typedKeys, h]
  rw [← hlast]
  exact List.filterMap_append

theorem segmentsOf_typed (hromaji : tables.romanToKana.Romaji) (htyped : TypedInRomaji input)
    (hne : input ≠ []) :
    segmentsOf tables input = [⟨tables.romanToKana.typed (typedKeys input), .romanToKana⟩] := by
  induction input using List.reverseRecOn with
  | nil => exact absurd rfl hne
  | append_singleton input element ih =>
    obtain ⟨hstyle, hpiece⟩ := htyped element (by simp)
    obtain ⟨value, hvalue⟩ := exists_displayed hpiece
    have hupdate : ∀ surface, (updateSurface tables surface element.piece element.inputStyle).1 =
        (tables.romanToKana.apply surface (.character value)).1 := by
      intro surface
      rw [hstyle]
      exact congrArg Prod.fst (InputTable.apply_displayed hromaji.spelled surface hvalue)
    rw [segmentsOf_concat, typedKeys_concat input hvalue, InputTable.typed_concat]
    by_cases hfirst : input = []
    · rw [hfirst, segmentsOf_nil, updateSegments, if_neg hpiece, hupdate, hstyle]
      rfl
    · rw [ih (fun element hin => htyped element (List.mem_append_left _ hin)) hfirst,
        updateSegments]
      dsimp only
      rw [if_pos hstyle.symm, hupdate]

theorem convertElements_typed (hromaji : tables.romanToKana.Romaji) (htyped : TypedInRomaji input) :
    convertElements tables input = tables.romanToKana.typed (typedKeys input) := by
  by_cases hne : input = []
  · rw [hne]
    rfl
  · rw [convertElements, segmentsOf_typed hromaji htyped hne]
    simp [segmentsSurface]

/-! ### The typed keys -/

/-- The keys that the search reads, where each typed one is one grapheme. -/
theorem observedInput_typed (lowercase : Text → Text) {composing : ComposingText}
    (htyped : TypedInRomaji composing.input)
    (hwhole : ∀ key ∈ typedKeys composing.input, graphemes unicode key = [key]) :
    observedInput unicode lowercase composing false =
      (typedKeys composing.input).map lowercase := by
  rw [observedInput, if_neg (by decide), typedKeys, List.map_filterMap]
  apply List.filterMap_congr
  intro element hin
  obtain ⟨value, hvalue⟩ := exists_displayed (htyped element hin).2
  have hkey : value ∈ typedKeys composing.input := List.mem_filterMap.mpr ⟨element, hin, hvalue⟩
  have hread : (graphemes unicode value).head?.map lowercase = some (lowercase value) := by
    rw [hwhole value hkey, List.head?_cons, Option.map_some]
  rw [hvalue, Option.map_some]
  cases hpiece : element.piece with
  | character character =>
    rw [hpiece] at hvalue
    cases hvalue
    exact hread
  | compositionSeparator => exact absurd hpiece (htyped element hin).2
  | key intention input modifiers =>
    rw [hpiece] at hvalue
    cases hvalue
    exact hread

def romajiElements (keys : List Text) : List InputElement :=
  keys.map fun key => .character key .romanToKana

theorem typedInRomaji_romajiElements (keys : List Text) : TypedInRomaji (romajiElements keys) := by
  intro element hin
  obtain ⟨value, -, rfl⟩ := List.mem_map.mp hin
  exact ⟨rfl, InputPiece.noConfusion⟩

theorem typedKeys_romajiElements (keys : List Text) : typedKeys (romajiElements keys) = keys := by
  rw [typedKeys, romajiElements, List.filterMap_map]
  exact List.filterMap_some

end

/-! ### The table of romaji -/

def IsRomajiCharacter (c : Char) : Prop :=
  c = 'ん' ∨ (∃ entry ∈ defaultRomanToKana, c ∈ entry.1 ∨ c ∈ entry.2) ∨ ∃ key ∈ macQwerty, c = key.1

section
variable {unicode : UnicodeTable} {pieces : Grapheme → Prop}

theorem Apart.letters (hapart : Apart unicode pieces)
    (hpieces : ∀ c, IsRomajiCharacter c → pieces [c])
    {text : Text} (htext : ∀ c ∈ text, IsRomajiCharacter c) : graphemes unicode text =
    letters text := by
  have hsegments := hapart (Input.letters text) (fun piece hin => by
    obtain ⟨c, hc, rfl⟩ := List.mem_map.mp hin
    exact hpieces c (htext c hc))
  rwa [flatten_letters] at hsegments

theorem splits_default (hapart : Apart unicode pieces)
    (hpieces : ∀ c, IsRomajiCharacter c → pieces [c]) :
    SplitsEntries unicode defaultRomanToKana := fun entry hin =>
  ⟨Apart.letters hapart hpieces fun _ hc => .inr (.inl ⟨entry, hin, .inl hc⟩),
    Apart.letters hapart hpieces fun _ hc => .inr (.inl ⟨entry, hin, .inr hc⟩)⟩

theorem typable_default (hapart : Apart unicode pieces)
    (hpieces : ∀ c, IsRomajiCharacter c → pieces [c]) :
    Typable unicode (.defaultRomanToKana unicode defaultRomanToKana) pieces := by
  have hentry : ∀ entry ∈ defaultRomanToKana, ∀ c, c ∈ entry.1 ∨ c ∈ entry.2 → pieces [c] :=
    fun entry hin c hc => hpieces c (.inr (.inl ⟨entry, hin, hc⟩))
  have hsplits := splits_default hapart hpieces
  refine ⟨romaji_default hsplits romajiEntry_default ny_mem_default, hapart, ?_, ?_⟩
  · intro piece hwritten
    rcases written_default hsplits hwritten with rfl | ⟨entry, hin, hpiece⟩
    · exact hpieces 'ん' (.inl rfl)
    · obtain ⟨c, hc, rfl⟩ := List.mem_map.mp hpiece
      exact hentry entry hin c (.inr hc)
  · intro mapping hmem piece hasked
    rcases asked_default hsplits hmem hasked with rfl | ⟨entry, hin, hpiece⟩
    · exact hentry _ ny_mem_default 'n' (.inl (by simp))
    · obtain ⟨c, hc, rfl⟩ := List.mem_map.mp hpiece
      exact hentry entry hin c (.inl hc)

end

/-! ### Hypotheses -/

section
variable {σ F : Type} [Field F] [LinearOrder F] {unicode : UnicodeTable} {functions : Functions F}
  {model : LanguageModel σ F} {observed : List Text} {mode : GenerationMode}
  {config : LmTypoConfig F}
  {scorer : LmScorer σ F} {hypothesis : Hypothesis F}

theorem completeHypothesis_corrected (table : Option InputTable) (hypothesis : Hypothesis F) :
    Yields (Later functions model)
      (completeHypothesis unicode functions model observed table hypothesis)
      (fun result _ => ∀ done, result = some done →
        done.corrected = hypothesis.corrected ++ observed.drop hypothesis.observedPosition)
          scorer := by
  unfold completeHypothesis
  split
  · next hend =>
    apply Yields.pure
    intro done hdone
    cases hdone
    rw [List.drop_eq_nil_of_le hend, List.append_nil]
  · split
    · exact Yields.pure fun done hdone => by cases hdone
    · apply Yields.bind (appendAndScore_yields hypothesis.emittedTokens _)
      intro scored middle _ _
      split
      · exact Yields.pure fun done hdone => by cases hdone
      · apply Yields.bind (pendingProxyLogProbability_yields _ _ table)
        intro result last _ _
        split
        · exact Yields.pure fun done hdone => by cases hdone
        · apply Yields.pure
          intro done hdone
          cases hdone
          rfl

theorem Script.initial : Script unicode functions observed mode config (Edit.copies [])
    (Hypothesis.initial (F := F)) :=
  ⟨Edit.valid_copies [], rfl, rfl, rfl⟩

/-- A hypothesis that takes no edit has the typed keys when it is complete. -/
theorem Script.completes_copies {copied : List Text} {before last : LmScorer σ F}
    {done : Hypothesis F}
    (h : Script unicode functions observed mode config (Edit.copies copied) hypothesis)
    (hdone : completeHypothesis unicode functions model observed mode.table hypothesis before =
      .ok (some done, last)) : done.corrected = observed := by
  have hcopied : hypothesis.corrected = observed.take hypothesis.observedPosition := by
    rw [← h.corrected, ← h.typed, Edit.flatMap_corrected_copies, Edit.flatMap_typed_copies]
  rw [(completeHypothesis_corrected mode.table hypothesis _ last hdone).2 done rfl, hcopied,
    List.take_append_drop]

theorem mem_neighbors_macQwerty {sqrt : F → F} {character : Text} {neighbor : Text × F}
    (h : neighbor ∈ neighbors unicode sqrt character .macQwerty) :
    ∃ key ∈ macQwerty, neighbor.1 = [key.1] := by
  rw [neighbors, coordinateNeighbors] at h
  split at h
  · cases h
  · obtain ⟨key, hkey, hnear⟩ := List.mem_filterMap.mp (List.mem_mergeSort.mp h)
    refine ⟨key, hkey, ?_⟩
    dsimp only at hnear
    split at hnear
    · cases hnear
    · split at hnear
      · cases hnear
        rfl
      · cases hnear

theorem Booked.corrected_pieces
    (h : Booked unicode functions observed mode config scorer hypothesis)
    (hboard : mode.topology = .macQwerty) {pieces : Grapheme → Prop}
    (hpieces : ∀ c, IsRomajiCharacter c → pieces [c]) (hobserved : ∀ key ∈ observed, pieces key) :
    ∀ key ∈ hypothesis.corrected, pieces key := by
  obtain ⟨edits, hscript⟩ := h.script
  intro key hkey
  rw [← hscript.corrected] at hkey
  obtain ⟨edit, hedit, hin⟩ := List.mem_flatMap.mp hkey
  have htyped : ∀ typed ∈ edit.typed, pieces typed := by
    intro typed htyped
    have hmem : typed ∈ edits.flatMap Edit.typed := List.mem_flatMap.mpr ⟨edit, hedit, htyped⟩
    rw [hscript.typed] at hmem
    exact hobserved typed (List.mem_of_mem_take hmem)
  cases edit with
  | copy typed => exact htyped key hin
  | substitute typed target distance =>
    obtain ⟨board, hmem, hsame⟩ := mem_neighbors_macQwerty (hboard ▸ hscript.valid _ hedit)
    obtain rfl := List.mem_singleton.mp hin
    have hkey : key = [board.1] := hsame
    rw [hkey]
    exact hpieces board.1 (.inr (.inr ⟨board, hmem, rfl⟩))
  | delete typed distance => cases hin
  | transpose first second =>
    refine htyped key ?_
    simp only [Edit.corrected, Edit.typed, List.mem_cons, List.not_mem_nil, or_false] at hin ⊢
    exact hin.symm

end

/-! ### Uncorrected results -/

/-- The typed keys, also in lower case, and the characters that the table and the board may put next
to them. -/
def RomajiPiece (lowercase : Text → Text) (input : List InputElement) (piece : Grapheme) : Prop :=
  piece ∈ typedKeys input ∨ piece ∈ (typedKeys input).map lowercase ∨
    ∃ c, IsRomajiCharacter c ∧ piece = [c]

section
variable {σ F : Type} [Field F] [LinearOrder F]

/-- Keys typed in romaji, apart from each other: a complete hypothesis that took no edit has them in
lower case and shows the katakana of the composing text of these, and so does every result of the
correction that has them. Where they were typed in lower case, that is the composing text itself. -/
theorem uncorrected_shows_composing (unicode : UnicodeTable) (functions : Functions F)
    (model : LanguageModel σ F) (tables : InputTableRegistry) (lowercase : Text → Text)
    (config : LmTypoConfig F) (composing : ComposingText)
    (htable : tables.romanToKana = .defaultRomanToKana unicode defaultRomanToKana)
    (hreached : ComposingText.Reached unicode tables (fun text edit =>
      ComposingText.InsertsQuietly unicode tables edit ∧ text.InsertsVisibly unicode edit)
        composing)
    (htyped : TypedInRomaji composing.input)
    (hapart : Apart unicode (RomajiPiece lowercase composing.input)) :
    let mode := generationMode .romanToKana tables
    let observed := observedInput unicode lowercase composing mode.useSurface
    let keys := (typedKeys composing.input).map lowercase
    let shown := toKatakana (convertElements tables (romajiElements keys)).flatten
    observed = keys ∧
      (∀ (start scorer before last : LmScorer σ F) (count : Nat) (beam : List (Hypothesis F))
        (hypothesis done : Hypothesis F) (copied : List Text),
        Reached unicode functions model observed mode config start count scorer beam →
        hypothesis ∈ beam → Later functions model scorer before →
        Script unicode functions observed mode config (Edit.copies copied) hypothesis →
        completeHypothesis unicode functions model observed mode.table hypothesis before =
          .ok (some done, last) →
        done.candidate.correctedInput = keys.flatten ∧ done.candidate.convertedText = shown) ∧
      (∀ (leftContext : Text) (state : σ) (candidates : List (LmTypoCandidate F)),
        experimentalTypoCorrection unicode functions model lowercase leftContext
          composing .romanToKana
          tables config state = .ok candidates →
        ∀ candidate ∈ candidates, candidate.correctedInput = keys.flatten →
          candidate.convertedText = shown) ∧
      ((∀ key ∈ typedKeys composing.input, lowercase key = key) →
        keys = typedKeys composing.input ∧ shown = toKatakana composing.surfaceText) := by
  have hpieces : ∀ c, IsRomajiCharacter c → RomajiPiece lowercase composing.input [c] := fun c hc =>
    .inr (.inr ⟨c, hc, rfl⟩)
  have hkeys : ∀ key ∈ (typedKeys composing.input).map lowercase,
      RomajiPiece lowercase composing.input key := fun key hin => .inr (.inl hin)
  have htypable := typable_default hapart hpieces
  have hromaji : tables.romanToKana.Romaji := htable ▸ htypable.romaji
  have hwhole : ∀ key ∈ typedKeys composing.input, graphemes unicode key = [key] := by
    intro key hin
    have hone := hapart [key] fun piece hpiece => .inl (List.mem_singleton.mp hpiece ▸ hin)
    rwa [List.flatten_singleton] at hone
  have hobserved := observedInput_typed lowercase htyped hwhole
  -- a hypothesis with these keys shows the katakana of what the table makes of them
  have hshows : ∀ {scorer : LmScorer σ F} {hypothesis : Hypothesis F} {config : LmTypoConfig F},
      Booked unicode functions ((typedKeys composing.input).map lowercase)
        (generationMode .romanToKana tables) config scorer hypothesis →
      hypothesis.corrected = (typedKeys composing.input).map lowercase →
      hypothesis.candidate.convertedText = toKatakana
        (convertElements tables
          (romajiElements ((typedKeys composing.input).map lowercase))).flatten := by
    intro scorer hypothesis config hbooked hcorrected
    have htext := htypable.consume_text hkeys
    have hrun := hbooked.text
    have hmode : (generationMode .romanToKana tables).table =
        some (.defaultRomanToKana unicode defaultRomanToKana) := congrArg some htable
    rw [hcorrected, hmode] at hrun
    rw [hrun] at htext
    rw [Hypothesis.candidate, convertElements_typed hromaji (typedInRomaji_romajiElements _),
      typedKeys_romajiElements, htable]
    exact htext
  dsimp only
  have hmode : (generationMode .romanToKana tables).useSurface = false := rfl
  rw [hmode, hobserved]
  refine ⟨rfl, ?_, ?_, ?_⟩
  · intro start scorer before last count beam hypothesis done copied hreached hin
      hlater hscript hdone
    have hcorrected := hscript.completes_copies hdone
    have hbooked := (hreached.booked.2 hypothesis hin).1.later hlater
    obtain ⟨hcomplete, -⟩ := (completeHypothesis_yields hbooked _ last hdone).2 done rfl
    exact ⟨congrArg List.flatten hcorrected, hshows hcomplete hcorrected⟩
  · intro leftContext state candidates hrun candidate hin hsame
    rw [experimentalTypoCorrection] at hrun
    dsimp only at hrun
    rw [hmode, hobserved] at hrun
    split at hrun
    · cases hrun
      cases hin
    · obtain ⟨start, -, hsearch⟩ := Loop.bind_eq_ok.mp hrun
      obtain ⟨⟨found, last⟩, hfound, hresult⟩ := Loop.bind_eq_ok.mp hsearch
      cases hresult
      obtain ⟨hypothesis, hbooked, -, hcandidate⟩ := (search_yields _ last hfound).2 candidate hin
      have hpiece := hbooked.corrected_pieces rfl hpieces hkeys
      have hflatten : hypothesis.corrected.flatten =
          ((typedKeys composing.input).map lowercase).flatten := by
        rw [← hsame]
        exact congrArg LmTypoCandidate.correctedInput hcandidate.symm
      have hcorrected : hypothesis.corrected = (typedKeys composing.input).map lowercase := by
        rw [← htypable.graphemes_flatten hpiece, hflatten]
        exact htypable.graphemes_flatten hkeys
      have hshown := congrArg LmTypoCandidate.convertedText hcandidate
      rw [← hshows hbooked hcorrected]
      exact hshown
  · intro hlower
    have hsame : (typedKeys composing.input).map lowercase = typedKeys composing.input :=
      List.map_congr_left hlower |>.trans (List.map_id _)
    have hwell := hreached.wellFormed fun _ _ hallowed => hallowed
    rw [hsame, ComposingText.surfaceText, hwell.coherent.surface,
      convertElements_typed hromaji htyped,
      convertElements_typed hromaji (typedInRomaji_romajiElements _), typedKeys_romajiElements]
    exact ⟨rfl, rfl⟩

end

/-! ### Keys of one kana -/

def defaultTables : InputTableRegistry := romajiTables defaultRomanToKana

/-- Lower case where the keys are letters of the alphabet. -/
def lowercaseAscii (text : Text) : Text := text.map Char.toLower

/-- A character that no rule of the kana table joins to another. -/
def Lone (piece : Grapheme) : Prop :=
  ∃ c, piece = [c] ∧ UnicodeTable.kana.properties c = { kind := .other }

theorem lone_iff (c : Char) : Lone [c] ↔ isSoundMark c = false := by
  rw [Lone, UnicodeTable.kana]
  cases h : isSoundMark c <;> simp [h]

theorem lone_romaji {c : Char} (h : IsRomajiCharacter c) : Lone [c] := by
  have hentries : defaultRomanToKana.all fun entry =>
      (entry.1 ++ entry.2).all fun c => !isSoundMark c := by decide +kernel
  have hboard : macQwerty.all fun key => !isSoundMark key.1 := by decide +kernel
  rw [lone_iff, ← Bool.not_eq_true']
  rcases h with rfl | ⟨entry, hin, hc⟩ | ⟨key, hin, rfl⟩
  · decide
  · exact List.all_eq_true.mp (List.all_eq_true.mp hentries entry hin) c (List.mem_append.mpr hc)
  · exact List.all_eq_true.mp hboard key hin

theorem typable_kana : Typable .kana defaultTables.romanToKana Lone :=
  typable_default (Segmentation.apart_of_other _) fun _ hc => lone_romaji hc

theorem splits_kana : SplitsEntries .kana defaultRomanToKana :=
  splits_default (Segmentation.apart_of_other _) fun _ hc => lone_romaji hc

theorem typed_a : defaultTables.romanToKana.typed [['a']] = [['あ']] := by
  have honly : defaultRomanToKana.all fun other => other.1 ≠ ['a'] || other.2 = ['あ'] := by
    decide +kernel
  exact typed_entry splits_kana romajiEntry_default ny_mem_default [] 'a' ['あ'] (by decide +kernel)
    (fun other hin hkey => by simpa [hkey] using List.all_eq_true.mp honly other hin) (by decide)

theorem typed_ka : defaultTables.romanToKana.typed [['k'], ['a']] = [['か']] := by
  have honly : defaultRomanToKana.all fun other => other.1 ≠ ['k', 'a'] || other.2 = ['か'] := by
    decide +kernel
  exact typed_entry splits_kana romajiEntry_default ny_mem_default ['k'] 'a' ['か']
    (by decide +kernel)
    (fun other hin hkey => by simpa [hkey] using List.all_eq_true.mp honly other hin) (by decide)

theorem typed_upper : defaultTables.romanToKana.typed [['A']] = [['A']] := by
  have hunknown : defaultRomanToKana.all fun entry => letters entry.1 ≠ [['A']] := by decide +kernel
  exact typed_unknown splits_kana romajiEntry_default ny_mem_default fun entry hin =>
    of_decide_eq_true (List.all_eq_true.mp hunknown entry hin)

theorem completes_kana {keys : List Grapheme} {kana : Char} (hkeys : ∀ key ∈ keys, Lone key)
    (htyped : defaultTables.romanToKana.typed keys = [[kana]]) (hkana : isConsonant [kana] = false)
    {tokens : List Token} {score : ℚ} {middle : LmScorer Unit ℚ}
    (hscore : appendAndScore atZero oneToken [] [katakanaChar kana]
      { model := (), promptTokens := [0] } = .ok (some (tokens, score), middle)) :
    ∃ done last, completeHypothesis .kana atZero oneToken keys (some defaultTables.romanToKana)
        Hypothesis.initial ({ model := (), promptTokens := [0] } : LmScorer Unit ℚ) =
          .ok (some done, last) ∧
      done.candidate.correctedInput = keys.flatten ∧ done.candidate.convertedText =
        [katakanaChar kana] := by
  obtain ⟨before, pending, hfollows, hsplit, hrun⟩ := typable_kana.consume_run hkeys
  rw [htyped] at hsplit
  have hpending : pending = [] := by
    refine hfollows.waits.resolve_right fun hcontinues => ?_
    have hwaits := typable_kana.romaji.waits hcontinues
    obtain ⟨value, hvalue⟩ := List.exists_mem_of_ne_nil pending hcontinues.1
    have hin : value ∈ [[kana]] := hsplit ▸ List.mem_append_right before hvalue
    have hconsonant := hwaits.1 value hvalue
    rw [List.mem_singleton.mp hin, hkana] at hconsonant
    cases hconsonant
  rw [hpending, List.append_nil] at hsplit
  rw [hpending, ← hsplit] at hrun
  have hne : ¬keys.length ≤ (Hypothesis.initial (F := ℚ)).observedPosition := by
    intro hle
    rw [List.length_eq_zero_iff.mp (Nat.le_zero.mp hle)] at htyped
    cases htyped
  have hrest : keys.drop (Hypothesis.initial (F := ℚ)).observedPosition = keys := rfl
  have hstart : (Hypothesis.initial (F := ℚ)).pending = [] := rfl
  rw [completeHypothesis, if_neg hne, if_neg (by decide)]
  dsimp only
  rw [hrest, hstart, hrun]
  have hbind : ∀ {α : Type} (next : Option (List Token × ℚ) → Scoring Unit ℚ α),
      (appendAndScore atZero oneToken [] [katakanaChar kana] >>= next)
        { model := (), promptTokens := [0] } = next (some (tokens, score)) middle := by
    intro α next
    exact congrArg (fun answer => answer >>= fun (result, scorer) => next result scorer) hscore
  refine ⟨_, _, (hbind _).trans rfl, ?_, ?_⟩
  · rfl
  · rfl

/-! ### Keys typed into an empty text -/

theorem input_romajiText (tables : InputTableRegistry) (keys : Text) :
    (ComposingText.romajiText tables keys).input = romajiElements (graphemes .kana keys) := by
  rw [ComposingText.romajiText, ComposingText.insertStr, ComposingText.insert]
  split
  · next hnil =>
    rw [romajiElements, hnil]
    rfl
  · exact List.append_nil _

theorem typedKeys_romajiText (tables : InputTableRegistry) (keys : Text) :
    typedKeys (ComposingText.romajiText tables keys).input = graphemes .kana keys := by
  rw [input_romajiText, typedKeys_romajiElements]

theorem reached_romajiText (tables : InputTableRegistry) (keys : Text) :
    ComposingText.Reached .kana tables (fun text edit =>
      ComposingText.InsertsQuietly .kana tables edit ∧ text.InsertsVisibly .kana edit)
      (ComposingText.romajiText tables keys) := by
  refine .edit (.insertStr keys .romanToKana) .new ⟨?_, fun _ hhidden => hhidden.2 rfl⟩
  refine ComposingText.Types.insertsQuietly fun element hin => ?_
  obtain ⟨value, -, rfl⟩ := List.mem_map.mp hin
  exact InputPiece.noConfusion

theorem surfaceText_romajiText (keys : Text) :
    (ComposingText.romajiText defaultTables keys).surfaceText =
      (defaultTables.romanToKana.typed (graphemes .kana keys)).flatten := by
  have hwell := (reached_romajiText defaultTables keys).wellFormed fun _ _ hallowed => hallowed
  rw [ComposingText.surfaceText, hwell.coherent.surface, input_romajiText,
    convertElements_typed typable_kana.romaji (typedInRomaji_romajiElements _),
      typedKeys_romajiElements]

theorem uncorrected_shows_composing_ka :
    ∃ done : Hypothesis ℚ, done.candidate.correctedInput = ['k', 'a'] ∧
      done.candidate.convertedText =
        toKatakana (ComposingText.romajiText defaultTables ['k', 'a']).surfaceText := by
  have hgraphemes : graphemes .kana ['k', 'a'] = [['k'], ['a']] := by decide +kernel
  have hkeys : typedKeys (ComposingText.romajiText defaultTables ['k', 'a']).input =
      [['k'], ['a']] := by
    rw [typedKeys_romajiText, hgraphemes]
  have hlone : ∀ key ∈ [['k'], ['a']], Lone key := by
    simp only [List.forall_mem_cons, lone_iff, List.not_mem_nil, false_implies,
      implies_true, and_true]
    decide
  have hlower : [['k'], ['a']].map lowercaseAscii = [['k'], ['a']] := by decide
  have hapart : Apart .kana
      (RomajiPiece lowercaseAscii (ComposingText.romajiText defaultTables ['k', 'a']).input) := by
    refine (Segmentation.apart_of_other UnicodeTable.kana.properties).mono fun piece hpiece => ?_
    rw [RomajiPiece, hkeys, hlower] at hpiece
    rcases hpiece with hkey | hkey | ⟨c, hc, rfl⟩
    · exact hlone piece hkey
    · exact hlone piece hkey
    · exact lone_romaji hc
  have htyped : TypedInRomaji (ComposingText.romajiText defaultTables ['k', 'a']).input := by
    rw [input_romajiText]
    exact typedInRomaji_romajiElements _
  obtain ⟨done, last, hdone, -⟩ := completes_kana hlone typed_ka (by decide) rfl
  obtain ⟨hobserved, hcompleted, -, hsame⟩ := uncorrected_shows_composing .kana atZero oneToken
    defaultTables lowercaseAscii .default (ComposingText.romajiText defaultTables ['k', 'a']) rfl
    (reached_romajiText defaultTables ['k', 'a']) htyped hapart
  rw [hobserved] at hcompleted
  rw [hkeys, hlower] at hcompleted
  rw [hkeys, hlower] at hsame
  obtain ⟨-, hshown⟩ := hsame (by decide)
  rw [← hshown]
  exact ⟨done, hcompleted _ _ _ last 0 _ _ done [] .initial (List.mem_singleton_self _)
    (Later.refl _ _ _) Script.initial hdone⟩

/-- `A` is searched as `a`, and shown as its kana. -/
theorem uncorrected_lowers :
    let composing := ComposingText.romajiText defaultTables ['A']
    let mode := generationMode .romanToKana defaultTables
    let observed := observedInput .kana lowercaseAscii composing mode.useSurface
    ∃ (scorer last : LmScorer Unit ℚ) (done : Hypothesis ℚ),
      Reached .kana atZero oneToken observed mode .default scorer 0 scorer [Hypothesis.initial] ∧
        Script .kana atZero observed mode .default (Edit.copies []) Hypothesis.initial ∧
        completeHypothesis .kana atZero oneToken observed mode.table Hypothesis.initial scorer =
          .ok (some done, last) ∧
        done.candidate.correctedInput ≠ (typedKeys composing.input).flatten ∧
        done.candidate.convertedText ≠ toKatakana composing.surfaceText := by
  have hgraphemes : graphemes .kana ['A'] = [['A']] := by decide +kernel
  have hkeys : typedKeys (ComposingText.romajiText defaultTables ['A']).input = [['A']] := by
    rw [typedKeys_romajiText, hgraphemes]
  have hobserved : observedInput .kana lowercaseAscii
      (ComposingText.romajiText defaultTables ['A']) false =
      [['a']] := by
    rw [observedInput, input_romajiText, hgraphemes]
    decide +kernel
  have hlone : ∀ key ∈ [['a']], Lone key := by
    simp only [List.forall_mem_cons, lone_iff, List.not_mem_nil, false_implies,
      implies_true, and_true]
    decide
  obtain ⟨done, last, hdone, hcorrected, hconverted⟩ := completes_kana hlone typed_a (by decide) rfl
  dsimp only
  have hmode : (generationMode .romanToKana defaultTables).useSurface = false := rfl
  rw [hmode, hobserved]
  refine ⟨_, last, done, .initial, Script.initial, hdone, ?_, ?_⟩
  · rw [hcorrected, hkeys]
    decide
  · rw [hconverted, surfaceText_romajiText, hgraphemes, typed_upper]
    decide

end BeanKey.LmTypo
