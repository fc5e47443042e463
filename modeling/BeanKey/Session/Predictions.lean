import BeanKey.Lattice.Bounds
import BeanKey.Lattice.Scores
import BeanKey.Session.NextInput
import BeanKey.Session.PostPrediction

/-! The predictions of a session: the longer readings a composition may come to, and the cache
that keeps those already shown in their places. -/
namespace BeanKey

namespace Lattice
open Input
open Session (lastInputStyle maximumDepth possibleNexts predictionUsable)

/-- What a prediction looks up besides a conversion; `none` where a lookup fails. `predict` is the
learning memory's, which has nothing where there is none. -/
structure PredictionLookups (unicode : UnicodeTable) extends Lookups unicode where
  entriesAfterPrefix : Text → Nat → Nat → Option (List DictionaryEntry)
  predict : Text → Option (List DictionaryEntry)

section
variable {unicode : UnicodeTable} (lookups : PredictionLookups unicode)
  (meaningCost : Nat → Nat → ℚ) (context : ConversionContext)
  (additionalEntries : List DictionaryEntry)

def entriesBehind (start : Text) : Option (List DictionaryEntry) := do
  let entries ←
    lookups.entriesAfterPrefix start (maximumDepth (graphemes unicode start).length) 700
  let learned ← lookups.predict start
  return (entries.filter fun entry => predictionUsable entry.rightId) ++
    (additionalEntries.filter fun entry => start.isPrefixOf entry.ruby && entry.ruby ≠ start) ++
    learned

def predictionOf (prefixEntries : List DictionaryEntry) (consumed : Nat) (start : Text)
    (entry : DictionaryEntry) : Candidate :=
  let scores := scoreEntries lookups.toLookups meaningCost context prefixEntries
  let missing := (graphemes unicode entry.ruby).length - (graphemes unicode start).length
  .single unicode (prefixEntries.flatMap DictionaryEntry.word ++ entry.word)
    (scores.1 + lookups.connectionCost scores.2.1 entry.leftId + entry.value +
      (if includesMeaning entry then meaningCost scores.2.2 entry.meaningId else 0) - missing)
    (.surface consumed) (if includesMeaning entry then entry.meaningId else scores.2.2)
    (prefixEntries ++ [entry])

def predictForRubyPrefixes (rubyPrefixes : List Text) (prefixEntries : List DictionaryEntry)
    (consumed nBest : Nat) : Option (List Candidate) := do
  let output ← rubyPrefixes.mapM fun start => do
    let entries ← entriesBehind lookups additionalEntries start
    return entries.map (predictionOf lookups meaningCost context prefixEntries consumed start)
  return (uniqueCandidates (sortByValue output.flatten)).take nBest

/-- Where the clauses behind the first one start; `index` is the place of the first entry. -/
def clauseStartsFrom : Nat → List DictionaryEntry → List Nat
  | index, former :: latter :: entries =>
    if isClause former.rightId latter.leftId then
      (index + 1) :: clauseStartsFrom (index + 1) (latter :: entries)
    else clauseStartsFrom (index + 1) (latter :: entries)
  | _, _ => []

/-- The loop over the clauses, from the last one on. It ends with the second that predictions go on
from, and those of the whole reading. -/
def predictClauses (entries : List DictionaryEntry) (consumed : Nat) :
    List Nat → Nat → List Candidate → Option (List Candidate)
  | [], _, output => some output
  | start :: starts, successfulGroups, output => do
    let predictions ← predictForRubyPrefixes lookups meaningCost context additionalEntries
      [(entries.drop start).flatMap DictionaryEntry.ruby] (entries.take start) consumed 5
    let output := output ++ predictions
    let successfulGroups :=
      if predictions = [] then successfulGroups else successfulGroups + 1
    if successfulGroups = 2 then
      if 0 < start then
        let whole ← predictForRubyPrefixes lookups meaningCost context additionalEntries
          [entries.flatMap DictionaryEntry.ruby] [] consumed 5
        return output ++ whole
      else return output
    else predictClauses entries consumed starts successfulGroups output

def predictFromCandidate (composing : ComposingText) (candidate : Candidate) (nBest : Nat) :
    Option (List Candidate) :=
  if candidate.entries = [] then some []
  else do
    let output ← predictClauses lookups meaningCost context additionalEntries candidate.entries
      composing.surface.length (0 :: clauseStartsFrom 0 candidate.entries).reverse 0 []
    return (sortByValue (uniqueCandidates output)).take nBest

def wholeInputPrefixes (tables : InputTableRegistry) (composing : ComposingText) : List Text :=
  let surface := composing.surfaceText
  let roman := (surface.reverse.takeWhile isAsciiAlphabetic).reverse
  if lastInputStyle composing = .direct ∨ roman = [] then [toKatakana surface]
  else
    let base := surface.take (surface.length - roman.length)
    if base = [] then []
    else
      match tables.resolve (lastInputStyle composing) with
      | some table => (possibleNexts table roman).map (toKatakana base ++ ·)
      | none => []

def predictWholeInput (tables : InputTableRegistry) (composing : ComposingText) (nBest : Nat) :
    Option (List Candidate) :=
  predictForRubyPrefixes lookups meaningCost context additionalEntries
    (wholeInputPrefixes tables composing) [] (graphemes unicode composing.surfaceText).length nBest

def predictWithEntries (order : HashOrder) (tables : InputTableRegistry)
    (composing : ComposingText) (nBest : Nat) : Option (List Candidate) :=
  if nBest = 0 ∨ composing.isEmpty then some []
  else do
    let converted ← convert lookups.toLookups meaningCost context 1 order tables
      { additionalEntries } composing
    let predictions ← converted.head?.elim (some []) fun candidate =>
      predictFromCandidate lookups meaningCost context additionalEntries composing candidate nBest
    if predictions ≠ [] then return predictions
    else predictWholeInput lookups meaningCost context additionalEntries tables composing nBest

end

/-! ### Where no lookup fails -/

section
variable {unicode : UnicodeTable} {lookups : PredictionLookups unicode}
  {meaningCost : Nat → Nat → ℚ} {context : ConversionContext}
  {additionalEntries : List DictionaryEntry}
  (hbehind : ∀ start, (entriesBehind lookups additionalEntries start).isSome)
include hbehind

theorem predictForRubyPrefixes_total (rubyPrefixes : List Text)
    (prefixEntries : List DictionaryEntry) (consumed nBest : Nat) :
    ∃ output, predictForRubyPrefixes lookups meaningCost context additionalEntries rubyPrefixes
      prefixEntries consumed nBest = some output := by
  have hmaps : ∀ start ∈ rubyPrefixes, (do
      let entries ← entriesBehind lookups additionalEntries start
      return entries.map
        (predictionOf lookups meaningCost context prefixEntries consumed start)).isSome := by
    intro start _
    obtain ⟨entries, hentries⟩ := Option.isSome_iff_exists.mp (hbehind start)
    rw [hentries]
    rfl
  obtain ⟨lists, hlists⟩ := Loop.exists_mapM _ rubyPrefixes hmaps
  exact ⟨_, by rw [predictForRubyPrefixes, hlists]; rfl⟩

theorem predictClauses_total (entries : List DictionaryEntry) (consumed : Nat) (starts : List Nat)
    (successfulGroups : Nat) (output : List Candidate) :
    ∃ result, predictClauses lookups meaningCost context additionalEntries entries consumed starts
      successfulGroups output = some result := by
  induction starts generalizing successfulGroups output with
  | nil => exact ⟨output, rfl⟩
  | cons start starts ih =>
    obtain ⟨predictions, hpredictions⟩ := predictForRubyPrefixes_total hbehind
      [(entries.drop start).flatMap DictionaryEntry.ruby] (entries.take start) consumed 5
    obtain ⟨whole, hwhole⟩ := predictForRubyPrefixes_total hbehind
      [entries.flatMap DictionaryEntry.ruby] [] consumed 5
    rw [predictClauses, hpredictions]
    simp only [Option.bind_eq_bind, Option.bind_some]
    generalize (if predictions = [] then successfulGroups else successfulGroups + 1) = groups
    split
    · split
      · exact ⟨_, by rw [hwhole]; rfl⟩
      · exact ⟨_, rfl⟩
    · exact ih groups _

theorem predictWithEntries_total {order : HashOrder} {tables : InputTableRegistry}
    {composing : ComposingText} (hconvert : (convert lookups.toLookups meaningCost context 1 order
    tables { additionalEntries } composing).isSome) (nBest : Nat) :
    ∃ output, predictWithEntries lookups meaningCost context additionalEntries order tables
      composing nBest = some output := by
  obtain ⟨converted, hconverted⟩ := Option.isSome_iff_exists.mp hconvert
  have hgroups : ∃ predictions, (converted.head?.elim (some []) fun candidate =>
      predictFromCandidate lookups meaningCost context additionalEntries composing
        candidate nBest) =
        some predictions := by
    cases converted.head? with
    | none => exact ⟨[], rfl⟩
    | some candidate =>
      rw [Option.elim_some, predictFromCandidate]
      split
      · exact ⟨[], rfl⟩
      · obtain ⟨made, hmade⟩ := predictClauses_total hbehind candidate.entries
          composing.surface.length (0 :: clauseStartsFrom 0 candidate.entries).reverse 0 []
        exact ⟨_, by rw [hmade]; rfl⟩
  obtain ⟨predictions, hpredictions⟩ := hgroups
  obtain ⟨whole, hwhole⟩ := predictForRubyPrefixes_total hbehind
    (wholeInputPrefixes tables composing) [] (graphemes unicode composing.surfaceText).length nBest
  rw [predictWithEntries]
  split
  · exact ⟨[], rfl⟩
  · rw [hconverted, Option.bind_eq_bind, Option.bind_some, hpredictions]
    simp only [Option.bind_some]
    split
    · exact ⟨_, rfl⟩
    · exact ⟨_, hwhole⟩

end

end Lattice

namespace Session
open Input
open BeanKey.Lattice hiding Candidate

structure StablePredictionCache where
  originalSurface : Text
  suffixCount : Nat
  candidates : List Lattice.Candidate

/-- The beginnings that a prediction must have to be of use for the composition still. -/
def compatiblePrefixes (composing : ComposingText) (source : PredictiveInputSource) : List Text :=
  if source.possibleNexts = [] then [toKatakana composing.surfaceText]
  else source.possibleNexts.map (toKatakana source.baseSurface ++ ·)

def compatible (composing : ComposingText) (source : PredictiveInputSource)
    (candidate : Lattice.Candidate) : Bool :=
  candidate.text ≠ [] && readingOf candidate ≠ toKatakana composing.surfaceText &&
    (compatiblePrefixes composing source).any fun start => start.isPrefixOf (readingOf candidate)

def consuming (composing : ComposingText) (candidate : Lattice.Candidate) : Lattice.Candidate :=
  { candidate with composingCount := .surface composing.surface.length }

namespace StablePredictionCache
variable (unicode : UnicodeTable) (cache : StablePredictionCache)

/-- The surface without as many graphemes as the pending suffix has letters. -/
def base : Text :=
  let original := graphemes unicode cache.originalSurface
  (original.take (original.length - cache.suffixCount)).flatten

def compatibleCandidates (composing : ComposingText) (source : PredictiveInputSource) :
    List Lattice.Candidate :=
  if (cache.base unicode).isPrefixOf source.baseSurface then
    (cache.candidates.filter (compatible composing source)).map (consuming composing)
  else []

end StablePredictionCache

def accepting (candidate : Lattice.Candidate) : Candidate where
  text := candidate.text
  value := candidate.value
  composingCount := candidate.composingCount
  lastMeaningId := candidate.lastMeaningId
  entries := candidate.entries
  isLearningTarget := candidate.isLearningTarget

structure PredictionRequest (unicode : UnicodeTable) where
  lookups : PredictionLookups unicode
  meaningCost : Nat → Nat → ℚ
  order : HashOrder
  session : ConversionSession
  nBest : Nat
  additional : List DictionaryEntry
  prefixText : Option Text

namespace PredictionRequest
variable {unicode : UnicodeTable} (tables : InputTableRegistry)
  (cache : Option StablePredictionCache) (request : PredictionRequest unicode)

def composing : ComposingText := request.session.composing

def source : PredictiveInputSource := predictiveInputSource tables request.composing

/-- What the request keeps of the predictions shown last. -/
def stable : List Lattice.Candidate :=
  cache.elim [] fun cache =>
    cache.compatibleCandidates unicode request.composing (request.source tables)

def fresh : Option (List Lattice.Candidate) :=
  predictWithEntries request.lookups request.meaningCost request.session.context
    request.additional request.order tables request.composing request.nBest

/-- The predictions that are shown, and the cache behind them; `none` where the request fails and
the cache stays. -/
def predictions : Option (List Lattice.Candidate × Option StablePredictionCache) :=
  if request.nBest = 0 then some ([], none)
  else
    (request.fresh tables).map fun fresh =>
      let kept := unique (request.stable tables cache)
      let predictions := kept ++ unseen (kept.map Lattice.Candidate.text) fresh
      let predictions := (predictions.filter fun candidate =>
        request.prefixText.all fun start => start.isPrefixOf candidate.text).take request.nBest
      (predictions,
        if predictions = [] then none
        else some
          { originalSurface := request.composing.surfaceText
            suffixCount := (request.source tables).droppedSuffixCount
            candidates := predictions })

/-- A request shows something where no lookup fails and the counts of the composition agree. -/
theorem predictions_total
    (hbehind : ∀ start, (entriesBehind request.lookups request.additional start).isSome)
    (hc : request.composing.surface = convertElements tables request.composing.input)
    (hcount : (katakanaGraphemes unicode request.composing).length =
      request.composing.surface.length) :
    ∃ result, request.predictions tables cache = some result := by
  have hconvert : (convert request.lookups.toLookups request.meaningCost request.session.context 1
      request.order tables { additionalEntries := request.additional }
      request.composing).isSome := by
    obtain ⟨results, hresults⟩ := latticeResults_total hc hcount
    rw [convert, hresults]
    rfl
  obtain ⟨found, hfound⟩ := predictWithEntries_total hbehind hconvert request.nBest
  rw [predictions]
  split
  · exact ⟨_, rfl⟩
  · exact ⟨_, by rw [fresh, hfound]; rfl⟩

end PredictionRequest

section
variable {unicode : UnicodeTable} (tables : InputTableRegistry)

/-- What requests show, those that do not fail, between two times the cache is emptied; each sees
the composition as it was edited by then. -/
def shown : Option StablePredictionCache → List (PredictionRequest unicode) →
    List (PredictionRequest unicode × List Lattice.Candidate)
  | _, [] => []
  | cache, request :: requests =>
    match request.predictions tables cache with
    | some result => (request, result.1) :: shown result.2 requests
    | none => shown cache requests

end

end Session

end BeanKey
