import BeanKey.Session.Candidate
import BeanKey.Lattice.Follow

/-! What a request offers: the conversions, their first clauses, words and representations. -/
namespace BeanKey

namespace Lattice
open Input

section
variable (unicode : UnicodeTable)

def Candidate.single (text : Text) (value : ℚ) (composingCount : ComposingCount)
    (lastMeaningId : Nat) (entries : List DictionaryEntry) : Candidate :=
  { text
    value
    composingCount
    lastMeaningId
    entries
    rubyCount := rubyCountOf unicode entries
    isLearningTarget := true
    isTypoCorrection := false
    firstClause := none }

def katakanaScore (value : Text) : ℚ :=
  value.foldl (fun score character => score *
    if character ∈ "プヴペィフ".toList then 1 / 2
    else if character ∈ "ュピポ".toList then 3 / 5
    else if character ∈ "パォグーム".toList then 7 / 10
    else 1) 1

def representationCandidate (word ruby : Text) (value : ℚ) (composingCount : ComposingCount) :
    Candidate :=
  let entry : DictionaryEntry :=
    { word, ruby, leftId := 1288, rightId := 1288, meaningId := 501, baseValue := value }
  .single unicode word value composingCount 501 [entry]

/-- `toUppercase` is the standard library's. -/
def representationCandidates (toUppercase : Text → Text) (composing : ComposingText)
    (fullWidthRoman halfWidthKana : Bool) : List Candidate :=
  let katakana := toKatakana composing.surfaceText
  let words : List (Text × ℚ) :=
    [(katakana, -14 * katakanaScore katakana), (toHiragana katakana, -29 / 2),
      (toUppercase katakana, -73 / 5)] ++
    (if fullWidthRoman then [(toFullWidth katakana, -147 / 10)] else []) ++
    if halfWidthKana then [(toHalfWidth katakana, -15)] else []
  words.map fun (word, value) =>
    representationCandidate unicode word katakana value (.input composing.input.length)

/-- The longer readings first, and of those the better values; equal ones stay in order. -/
def sortByRuby (candidates : List Candidate) : List Candidate :=
  candidates.mergeSort fun left right => right.rubyCount < left.rubyCount ||
    (right.rubyCount = left.rubyCount && right.value ≤ left.value)

/-- `unique` of the session, which does not sort. -/
def unique (candidates : List Candidate) : List Candidate :=
  (candidates.filter fun candidate => candidate.text ≠ []).foldl insertUnique []

def unseen : List Text → List Candidate → List Candidate
  | _, [] => []
  | seen, candidate :: candidates =>
    if candidate.text ∈ seen then unseen seen candidates
    else candidate :: unseen (candidate.text :: seen) candidates

end

theorem mem_sortByRuby {candidates : List Candidate} {candidate : Candidate} :
    candidate ∈ sortByRuby candidates ↔ candidate ∈ candidates :=
  (List.mergeSort_perm _ _).mem_iff

theorem mem_unique {candidates : List Candidate} {candidate : Candidate}
    (h : candidate ∈ unique candidates) : candidate ∈ candidates :=
  List.mem_of_mem_filter ((mem_foldl_insertUnique h).resolve_left List.not_mem_nil)

theorem text_mem_unique {candidates : List Candidate} {candidate : Candidate}
    (h : candidate ∈ candidates) (htext : candidate.text ≠ []) :
    ∃ kept ∈ unique candidates, kept.text = candidate.text := by
  have hmem : candidate.text ∈ (candidates.filter fun candidate => candidate.text ≠ []).map
      Candidate.text :=
    List.mem_map.mpr ⟨candidate, List.mem_filter.mpr ⟨h, decide_eq_true htext⟩, rfl⟩
  exact List.mem_map.mp (text_mem_foldl_insertUnique (.inr hmem))

theorem mem_unseen {seen : List Text} {candidates : List Candidate} {candidate : Candidate}
    (h : candidate ∈ unseen seen candidates) : candidate ∈ candidates := by
  induction candidates generalizing seen with
  | nil => exact h
  | cons first candidates ih =>
    rw [unseen] at h
    split at h
    · exact List.mem_cons_of_mem _ (ih h)
    · rcases List.mem_cons.mp h with rfl | hin
      · exact List.mem_cons_self
      · exact List.mem_cons_of_mem _ (ih hin)

theorem text_mem_unseen {seen : List Text} {candidates : List Candidate} {candidate : Candidate}
    (h : candidate ∈ candidates) (hseen : candidate.text ∉ seen) :
    ∃ kept ∈ unseen seen candidates, kept.text = candidate.text := by
  induction candidates generalizing seen with
  | nil => exact absurd h List.not_mem_nil
  | cons first candidates ih =>
    rw [unseen]
    rcases List.mem_cons.mp h with rfl | hin
    · rw [if_neg hseen]
      exact ⟨candidate, List.mem_cons_self, rfl⟩
    · split
      · exact ih hin hseen
      · by_cases hsame : first.text = candidate.text
        · exact ⟨first, List.mem_cons_self, hsame⟩
        · have hnot : candidate.text ∉ first.text :: seen := by
            simpa [hseen] using fun heq => hsame heq.symm
          obtain ⟨kept, hkept, htext⟩ := ih hin hnot
          exact ⟨kept, List.mem_cons_of_mem _ hkept, htext⟩

def wordCandidates {unicode : UnicodeTable} (lookups : Lookups unicode)
    (composing : ComposingText) : List Candidate :=
  if composing.isEmpty then []
  else
    let found := (lookups.matchesFromStart (toKatakana composing.surfaceText)
      maximumDictionaryLength).flatMap fun found => found.entries.map fun entry =>
        .single unicode entry.word entry.value (.surface found.surfaceEnd) entry.meaningId [entry]
    sortByRuby (uniqueCandidates found)

end Lattice

namespace Session
open Input BeanKey.Lattice

structure RequestOptions where
  nBest : Nat := 10
  fullWidthRoman : Bool := true
  halfWidthKana : Bool := false
  needTypoCorrection : Bool := false

/-- What a request also shows: the user's shortcuts, special candidates, and predictions where they
are shown among the conversions. -/
structure RequestExtras where
  shortcuts : List DictionaryEntry := []
  predictions : Option (List Lattice.Candidate) := none
  foreignPredictions : Option (List Lattice.Candidate) := none
  special : List Lattice.Candidate := []

def dictionaryText (candidate : Lattice.Candidate) : Text :=
  let text := candidate.entries.flatMap DictionaryEntry.word
  if text = [] then candidate.text else text

def readingOf (candidate : Lattice.Candidate) : Text :=
  candidate.entries.flatMap DictionaryEntry.ruby

/-- `expandTemplates` fills in the templates of a text, such as dates. -/
def prepareCandidate (expandTemplates : Text → Text) (prefixCandidate : Option Lattice.Candidate)
    (candidate : Lattice.Candidate) : Lattice.Candidate :=
  let candidate :=
    match prefixCandidate with
    | none => candidate
    | some start =>
      match stripPrefix candidate.text (dictionaryText start) with
      | some remaining =>
        if dictionaryText start ≠ start.text then
          { candidate with text := start.text ++ remaining, isLearningTarget := false }
        else candidate
      | none => candidate
  let expanded := expandTemplates candidate.text
  if expanded ≠ candidate.text then
    { candidate with text := expanded, isLearningTarget := false }
  else candidate

def matchesPrefix (prefixCandidate : Option Lattice.Candidate) (candidate : Lattice.Candidate) :
    Bool :=
  prefixCandidate.all fun start => (dictionaryText start).isPrefixOf candidate.text

def shortcutCandidates (unicode : UnicodeTable) (shortcuts : List DictionaryEntry)
    (composing : ComposingText) : List Lattice.Candidate :=
  let katakana := toKatakana composing.surfaceText
  (shortcuts.filter fun entry => entry.ruby = katakana).map fun entry =>
    { Candidate.single unicode entry.word entry.value
        (.surface (graphemes unicode katakana).length) entry.meaningId [entry] with
      isLearningTarget := false }

def firstClauses (unicode : UnicodeTable) (prefixCandidate : Option Lattice.Candidate)
    (full : List Lattice.Candidate) : List Lattice.Candidate :=
  ((sortByRuby (unique (full.filterMap (Candidate.firstClauseCandidate unicode)))).filter
    (matchesPrefix prefixCandidate)).take 5

def withPredictions (predictions : Option (List Lattice.Candidate))
    (leading : List Lattice.Candidate) : List Lattice.Candidate :=
  match predictions with
  | some predictions => unique (leading ++ predictions)
  | none => leading

/-- Brings a conversion of the whole reading among the first three. -/
def withReading (reading : Text) (full leading : List Lattice.Candidate) :
    List Lattice.Candidate :=
  if (leading.take 3).any fun candidate => readingOf candidate = reading then leading
  else
    match full.find? fun candidate => readingOf candidate = reading with
    | some candidate =>
      let leading := leading.filter fun item => item.text ≠ candidate.text
      leading.take 2 ++ [candidate] ++ leading.drop 2
    | none => leading

/-- The conversions, shortcuts and predictions that are shown first. -/
def leadingCandidates (unicode : UnicodeTable) (extras : RequestExtras)
    (composing : ComposingText) (prefixCandidate : Option Lattice.Candidate)
    (full : List Lattice.Candidate) : List Lattice.Candidate :=
  let predictions := extras.predictions.map (List.filter (matchesPrefix prefixCandidate))
  let leading := withPredictions extras.foreignPredictions <| withPredictions predictions <|
    unique (full.take 5 ++ shortcutCandidates unicode extras.shortcuts composing)
  withReading (toKatakana composing.surfaceText) full
    ((sortByValue (leading.filter (matchesPrefix prefixCandidate))).take 5)

section
variable {unicode : UnicodeTable} (lookups : Lookups unicode) (toUppercase : Text → Text)

def requestWords (options : RequestOptions) (composing : ComposingText) : List Lattice.Candidate :=
  sortByRuby (unique (wordCandidates lookups composing ++
    representationCandidates unicode toUppercase composing options.fullWidthRoman
      options.halfWidthKana))

/-- The main results of `assemble_request`; `full` are the conversions. -/
def assembleRequest (expandTemplates : Text → Text) (options : RequestOptions)
    (extras : RequestExtras) (composing : ComposingText)
    (prefixCandidate : Option Lattice.Candidate) (full : List Lattice.Candidate) :
    List Lattice.Candidate :=
  let full := full.filter (matchesPrefix prefixCandidate)
  let firstClauses := firstClauses unicode prefixCandidate full
  let leading := leadingCandidates unicode extras composing prefixCandidate full
  let seen := leading.map Lattice.Candidate.text
  let firstForMain := unseen seen firstClauses
  let seen := seen ++ firstForMain.map Lattice.Candidate.text
  let words := unseen seen (requestWords lookups toUppercase options composing)
  let special := unseen (seen ++ words.map Lattice.Candidate.text) extras.special
  let words := words.take 5 ++ special ++ words.drop 5
  ((leading ++ firstForMain ++ words).filter (matchesPrefix prefixCandidate)).map
    (prepareCandidate expandTemplates prefixCandidate)

/-- `ConversionSession::request` without the predictions it keeps apart; `none` where the source
panics. -/
def request (meaningCost : Nat → Nat → ℚ) (expandTemplates : Text → Text) (order : HashOrder)
    (tables : InputTableRegistry) (context : ConversionContext)
    (additionalEntries : List DictionaryEntry) (options : RequestOptions) (extras : RequestExtras)
    (composing : ComposingText) : Option (List Lattice.Candidate) :=
  (convert lookups meaningCost context options.nBest order tables
    { additionalEntries, needTypoCorrection := options.needTypoCorrection } composing).map
      (assembleRequest lookups toUppercase expandTemplates options extras composing none)

end

/-! ### Where a candidate comes from -/

def RequestExtras.candidates (extras : RequestExtras) (unicode : UnicodeTable)
    (composing : ComposingText) : List Lattice.Candidate :=
  shortcutCandidates unicode extras.shortcuts composing ++ extras.predictions.getD [] ++
    extras.foreignPredictions.getD [] ++ extras.special

section
variable {unicode : UnicodeTable} {lookups : Lookups unicode} {toUppercase : Text → Text}
  {expandTemplates : Text → Text} {options : RequestOptions} {extras : RequestExtras}
  {composing : ComposingText} {prefixCandidate : Option Lattice.Candidate}
  {full : List Lattice.Candidate} {candidate : Lattice.Candidate}

@[simp] theorem prepareCandidate_count (candidate : Lattice.Candidate) :
    (prepareCandidate expandTemplates prefixCandidate candidate).composingCount =
      candidate.composingCount := by
  unfold prepareCandidate
  dsimp only
  split <;> split <;> (try split) <;> (try split) <;> rfl

theorem mem_withPredictions {predictions : Option (List Lattice.Candidate)}
    {leading : List Lattice.Candidate} (h : candidate ∈ withPredictions predictions leading) :
    candidate ∈ leading ∨ candidate ∈ predictions.getD [] := by
  cases predictions with
  | none => exact .inl h
  | some predictions => exact List.mem_append.mp (mem_unique h)

theorem mem_withReading {reading : Text} {leading : List Lattice.Candidate}
    (h : candidate ∈ withReading reading full leading) : candidate ∈ leading ∨
    candidate ∈ full := by
  rw [withReading] at h
  split at h
  · exact .inl h
  · split at h
    · next found hfound =>
      rcases List.mem_append.mp h with hin | hrest
      · rcases List.mem_append.mp hin with hfirst | hhere
        · exact .inl (List.mem_of_mem_filter (List.mem_of_mem_take hfirst))
        · rw [List.mem_singleton.mp hhere]
          exact .inr (List.mem_of_find?_eq_some hfound)
      · exact .inl (List.mem_of_mem_filter (List.mem_of_mem_drop hrest))
    · exact .inl h

theorem mem_leadingCandidates
    (h : candidate ∈ leadingCandidates unicode extras composing prefixCandidate full) :
    candidate ∈ full ∨ candidate ∈ extras.candidates unicode composing := by
  rcases mem_withReading h with hin | hfull
  · have hkept := List.mem_of_mem_filter (mem_sortByValue.mp (List.mem_of_mem_take hin))
    rw [RequestExtras.candidates]
    rcases mem_withPredictions hkept with hrest | hforeign
    · rcases mem_withPredictions hrest with hfirst | hpredicted
      · rcases List.mem_append.mp (mem_unique hfirst) with hfull | hshortcut
        · exact .inl (List.mem_of_mem_take hfull)
        · exact .inr (by simp [hshortcut])
      · right
        cases hpredictions : extras.predictions with
        | none => simp [hpredictions] at hpredicted
        | some predictions =>
          rw [hpredictions] at hpredicted
          have := List.mem_of_mem_filter hpredicted
          simp [this]
    · exact .inr (by simp [hforeign])
  · exact .inl hfull

theorem mem_firstClauses (h : candidate ∈ firstClauses unicode prefixCandidate full) :
    ∃ whole ∈ full, whole.firstClauseCandidate unicode = some candidate :=
  List.mem_filterMap.mp
    (mem_unique (mem_sortByRuby.mp (List.mem_of_mem_filter (List.mem_of_mem_take h))))

theorem mem_requestWords (h : candidate ∈ requestWords lookups toUppercase options composing) :
    candidate ∈ wordCandidates lookups composing ∨
      candidate ∈ representationCandidates unicode toUppercase composing options.fullWidthRoman
        options.halfWidthKana :=
  List.mem_append.mp (mem_unique (mem_sortByRuby.mp h))

theorem mem_assembleRequest (h : candidate ∈ assembleRequest lookups toUppercase expandTemplates
    options extras composing prefixCandidate full) :
    ∃ source : Lattice.Candidate, source.composingCount = candidate.composingCount ∧
      (source ∈ full ∨ (∃ whole ∈ full, whole.firstClauseCandidate unicode = some source) ∨
        source ∈ wordCandidates lookups composing ∨
        source ∈ representationCandidates unicode toUppercase composing options.fullWidthRoman
          options.halfWidthKana ∨ source ∈ extras.candidates unicode composing) := by
  obtain ⟨source, hsource, rfl⟩ := List.mem_map.mp h
  refine ⟨source, (prepareCandidate_count source).symm, ?_⟩
  have hin := List.mem_of_mem_filter hsource
  have hwords : ∀ {seen},
      source ∈ unseen seen (requestWords lookups toUppercase options composing) →
        source ∈ wordCandidates lookups composing ∨
        source ∈ representationCandidates unicode toUppercase composing options.fullWidthRoman
          options.halfWidthKana ∨ source ∈ extras.candidates unicode composing := by
    intro seen hword
    rcases mem_requestWords (mem_unseen hword) with hword | hrepresentation
    · exact .inl hword
    · exact .inr (.inl hrepresentation)
  rcases List.mem_append.mp hin with hconverted | hrest
  · rcases List.mem_append.mp hconverted with hleading | hfirst
    · rcases mem_leadingCandidates hleading with hfull | hextra
      · exact .inl (List.mem_of_mem_filter hfull)
      · exact .inr (.inr (.inr (.inr hextra)))
    · obtain ⟨whole, hwhole, hclause⟩ := mem_firstClauses (mem_unseen hfirst)
      exact .inr (.inl ⟨whole, List.mem_of_mem_filter hwhole, hclause⟩)
  · rcases List.mem_append.mp hrest with hbegin | hdrop
    · rcases List.mem_append.mp hbegin with htake | hspecial
      · exact .inr (.inr (hwords (List.mem_of_mem_take htake)))
      · have := mem_unseen hspecial
        exact .inr (.inr (.inr (.inr (by simp [RequestExtras.candidates, this]))))
    · exact .inr (.inr (hwords (List.mem_of_mem_drop hdrop)))

/-- A word or representation whose text nothing before it has is offered, or one with its text
is. -/
theorem exists_word (hin : candidate ∈ wordCandidates lookups composing ++
      representationCandidates unicode toUppercase composing options.fullWidthRoman
        options.halfWidthKana) (htext : candidate.text ≠ [])
    (hfull : ∀ whole ∈ full, whole.text ≠ candidate.text)
    (hfirst : ∀ whole ∈ full, ∀ clause, whole.firstClauseCandidate unicode = some clause →
      clause.text ≠ candidate.text)
    (hextra : ∀ extra ∈ extras.candidates unicode composing, extra.text ≠ candidate.text) :
    ∃ word ∈ wordCandidates lookups composing ++ representationCandidates unicode toUppercase
        composing options.fullWidthRoman options.halfWidthKana, word.text = candidate.text ∧
      prepareCandidate expandTemplates none word ∈ assembleRequest lookups toUppercase
        expandTemplates options extras composing none full := by
  obtain ⟨unique', hunique, hsame⟩ := text_mem_unique hin htext
  have hwords : unique' ∈ requestWords lookups toUppercase options composing :=
    mem_sortByRuby.mpr hunique
  have hall : full.filter (matchesPrefix none) = full := List.filter_eq_self.mpr fun _ _ => rfl
  have hleading : candidate.text ∉
      (leadingCandidates unicode extras composing none full).map Lattice.Candidate.text := by
    intro hmem
    obtain ⟨other, hother, heq⟩ := List.mem_map.mp hmem
    rcases mem_leadingCandidates hother with hconverted | hshown
    · exact hfull other hconverted heq
    · exact hextra other hshown heq
  have hclauses : candidate.text ∉ (unseen
      ((leadingCandidates unicode extras composing none full).map Lattice.Candidate.text)
        (firstClauses unicode none full)).map Lattice.Candidate.text := by
    intro hmem
    obtain ⟨other, hother, heq⟩ := List.mem_map.mp hmem
    obtain ⟨whole, hwhole, hclause⟩ := mem_firstClauses (mem_unseen hother)
    exact hfirst whole hwhole other hclause heq
  obtain ⟨word, hword, heq⟩ := text_mem_unseen hwords
    (by rw [hsame, List.mem_append]; exact not_or.mpr ⟨hleading, hclauses⟩)
  refine ⟨word, List.mem_append.mpr (mem_requestWords (mem_unseen hword)), heq.trans hsame, ?_⟩
  apply List.mem_map_of_mem
  refine List.mem_filter.mpr ⟨?_, rfl⟩
  rw [hall]
  refine List.mem_append_right _ ?_
  rw [← List.take_append_drop 5 (unseen _ _)] at hword
  rcases List.mem_append.mp hword with htake | hdrop
  · exact List.mem_append_left _ (List.mem_append_left _ htake)
  · exact List.mem_append_right _ hdrop

end

end Session

end BeanKey
