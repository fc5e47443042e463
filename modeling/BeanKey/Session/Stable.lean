import BeanKey.Input.Batch
import BeanKey.Session.Displayed
import BeanKey.Session.Predictions

/-! The places of predictions. While the user types on, those that still fit stay in front and
in their order. -/
namespace BeanKey

namespace Lattice

theorem unique_eq_self {candidates : List Candidate}
    (hnodup : (candidates.map Candidate.text).Nodup)
    (htext : ∀ candidate ∈ candidates, candidate.text ≠ []) : unique candidates = candidates := by
  have hall : candidates.filter (fun candidate => candidate.text ≠ []) = candidates :=
    List.filter_eq_self.mpr fun candidate hin => decide_eq_true (htext candidate hin)
  rw [unique, hall, insertUnique_eq, Keyed.foldl_insert_new _ _ (by simpa using hnodup),
    List.nil_append]

end Lattice

namespace Session
open Input
open BeanKey.Lattice hiding Candidate

@[simp] theorem consuming_text (composing : ComposingText) (candidate : Lattice.Candidate) :
    (consuming composing candidate).text = candidate.text := rfl

@[simp] theorem consuming_entries (composing : ComposingText) (candidate : Lattice.Candidate) :
    (consuming composing candidate).entries = candidate.entries := rfl

@[simp] theorem consuming_consuming (composing later : ComposingText)
    (candidate : Lattice.Candidate) :
    consuming later (consuming composing candidate) = consuming later candidate := rfl

@[simp] theorem compatible_consuming (composing later : ComposingText)
    (source : PredictiveInputSource) (candidate : Lattice.Candidate) :
    compatible later source (consuming composing candidate) = compatible later source candidate :=
  rfl

def held (cache : Option StablePredictionCache) : List Lattice.Candidate :=
  cache.elim [] StablePredictionCache.candidates

namespace PredictionRequest
variable {unicode : UnicodeTable} (tables : InputTableRegistry)
  {cache next : Option StablePredictionCache} (request : PredictionRequest unicode)
  {list : List Lattice.Candidate}

/-- What the reading must still begin with when the next predictions are asked for. -/
def base : Text :=
  StablePredictionCache.base unicode
    ⟨request.composing.surfaceText, (request.source tables).droppedSuffixCount, []⟩

/-- The candidate fits what the request is about, as it is and without a look at the dictionary. -/
def keeps (candidate : Lattice.Candidate) : Bool :=
  compatible request.composing (request.source tables) candidate &&
    request.prefixText.all fun start => start.isPrefixOf candidate.text

/-- The user typed on from one request to the other. -/
def TypedOn (earlier later : PredictionRequest unicode) : Prop :=
  earlier.base tables <+: (later.source tables).baseSurface

variable {tables request}

theorem base_prefix : request.base tables <+: (request.source tables).baseSurface := by
  obtain ⟨suffix, hsurface, hcount, -⟩ := predictiveInputSource_split tables request.composing
  exact take_graphemes_prefix unicode hsurface hcount

/-- Whoever leaves in place what the earlier request is about has typed on: a text that ends with no
letter is not among the letters that the later request leaves out. -/
theorem typedOn_of_surface {earlier later : PredictionRequest unicode}
    (hsurface : (earlier.source tables).baseSurface <+: later.composing.surfaceText)
    (hletter : ∀ value ∈ (earlier.source tables).baseSurface.getLast?,
      isAsciiAlphabetic value = false) : earlier.TypedOn tables later := by
  refine base_prefix.trans ?_
  obtain ⟨suffix, hlater, -, hletters⟩ := predictiveInputSource_split tables later.composing
  have hbase : (later.source tables).baseSurface <+: later.composing.surfaceText := ⟨_, hlater.symm⟩
  rcases List.prefix_or_prefix_of_prefix hsurface hbase with hkept | ⟨letters, hlonger⟩
  · exact hkept
  · rw [← hlonger, hlater] at hsurface
    have hamong := (List.prefix_append_right_inj _).mp hsurface
    cases hlast : letters.getLast? with
    | none => rw [← hlonger, List.getLast?_eq_none_iff.mp hlast, List.append_nil]
    | some value =>
      have hend : (earlier.source tables).baseSurface.getLast? = some value := by
        rw [← hlonger, List.getLast?_append, hlast]
        rfl
      have hno := hletter value hend
      rw [hletters value (hamong.subset (List.mem_of_getLast? hlast))] at hno
      cases hno

theorem source_insertStr {composing : ComposingText} (hwell : composing.WellFormed tables)
    (hend : composing.cursor = composing.surface.length) (hshown : composing.surface ≠ [])
    {value : Text} (hvalue : value ≠ []) :
    (predictiveInputSource tables (composing.insertStr unicode tables value .direct)).baseSurface =
      (composing.insertStr unicode tables value .direct).surfaceText := by
  have hsome : graphemes unicode value ≠ [] := by
    rwa [ne_eq, graphemes_eq_nil]
  have hne : (graphemes unicode value).map (fun value => InputElement.character value .direct) ≠
      [] :=
    fun hnone => hsome (List.map_eq_nil_iff.mp hnone)
  have hcursor : composing.cursor ≠ 0 := by
    rw [hend]
    exact fun hnone => hshown (List.length_eq_zero_iff.mp hnone)
  have hforced : composing.forceInputCursor tables composing.cursor =
      (composing, composing.input.length) := by
    rw [ComposingText.forceInputCursor, if_neg hcursor, if_pos hend.ge]
  have hinput := ComposingText.insert_input hwell hne
  have hatEnd : composing.isAtEnd = true := decide_eq_true hend
  rw [hforced, if_pos hatEnd, List.drop_length, List.append_nil] at hinput
  obtain ⟨last, hlast⟩ := Option.isSome_iff_exists.mp (List.getLast?_isSome.mpr hsome)
  have hfinal : (composing.insertStr unicode tables value .direct).input.getLast? =
      some (.character last .direct) := by
    rw [ComposingText.insertStr, hinput, List.getLast?_append, List.getLast?_map, hlast]
    rfl
  unfold predictiveInputSource
  rw [hfinal]
  dsimp only
  rw [if_pos (.inl rfl)]

/-- Typing directly at the end of a composition is typing on. -/
theorem typedOn_insertStr {earlier later : PredictionRequest unicode}
    (hwell : earlier.composing.WellFormed tables)
    (hend : earlier.composing.cursor = earlier.composing.surface.length) {value : Text}
    (hlater : later.composing = earlier.composing.insertStr unicode tables value .direct) :
    earlier.TypedOn tables later := by
  refine base_prefix.trans ?_
  have hbase : (earlier.source tables).baseSurface <+: earlier.composing.surfaceText := by
    obtain ⟨suffix, hsurface, -⟩ := predictiveInputSource_split tables earlier.composing
    exact ⟨_, hsurface.symm⟩
  by_cases hvalue : value = []
  · have hsame : later.composing = earlier.composing := by
      rw [hlater, hvalue]
      rfl
    rw [source, source, hsame]
  · by_cases hempty : earlier.composing.surface = []
    · rw [ComposingText.surfaceText, hempty] at hbase
      rw [List.prefix_nil.mp hbase]
      exact List.nil_prefix
    · have hsurface : (earlier.composing.insertStr unicode tables value .direct).surface =
          earlier.composing.surface ++ graphemes unicode value :=
        (ComposingText.insertStr_direct hwell hend hvalue).1
      have hwhole : (later.source tables).baseSurface =
          earlier.composing.surfaceText ++ (graphemes unicode value).flatten := by
        rw [source, hlater, source_insertStr hwell hend hempty hvalue, ComposingText.surfaceText,
          hsurface, List.flatten_append, ComposingText.surfaceText]
      rw [hwhole]
      exact hbase.trans (List.prefix_append _ _)

/-- What a request that asks for predictions shows, and the cache behind it. -/
theorem predictions_spec (h : request.predictions tables cache = some (list, next))
    (hcount : request.nBest ≠ 0) :
    ∃ fresh, request.fresh tables = some fresh ∧
      list = (((unique (request.stable tables cache) ++
        unseen ((unique (request.stable tables cache)).map Lattice.Candidate.text) fresh).filter
          fun candidate => request.prefixText.all fun start =>
            start.isPrefixOf candidate.text).take request.nBest) ∧
      held next = list ∧ ∀ kept ∈ next, kept.base unicode = request.base tables := by
  rw [predictions, if_neg hcount, Option.map_eq_some_iff] at h
  obtain ⟨fresh, hfresh, hresult⟩ := h
  obtain ⟨rfl, rfl⟩ := Prod.mk.inj hresult
  refine ⟨fresh, hfresh, rfl, ?_, ?_⟩
  · split
    · next hnone => exact hnone.symm
    · rfl
  · intro kept hkept
    split at hkept
    · cases hkept
    · obtain rfl := Option.some.inj hkept
      rfl

theorem predictions_none (h : request.predictions tables cache = some (list, next))
    (hcount : request.nBest = 0) : list = [] ∧ next = none := by
  rw [predictions, if_pos hcount] at h
  simpa [eq_comm] using h

theorem stable_nodup (hcache : ((held cache).map Lattice.Candidate.text).Nodup) :
    ((request.stable tables cache).map Lattice.Candidate.text).Nodup ∧
      ∀ candidate ∈ request.stable tables cache, candidate.text ≠ [] := by
  unfold stable
  cases cache with
  | none => simp
  | some cache =>
    simp only [Option.elim_some, StablePredictionCache.compatibleCandidates]
    split
    · refine ⟨?_, ?_⟩
      · rw [List.map_map]
        exact hcache.sublist (List.filter_sublist.map _)
      · intro candidate hin
        obtain ⟨before, hbefore, rfl⟩ := List.mem_map.mp hin
        have hfits := (List.mem_filter.mp hbefore).2
        simp only [compatible, Bool.and_eq_true, decide_eq_true_eq] at hfits
        exact hfits.1.1
    · simp

/-- The texts in the cache differ, before and after every request. -/
theorem predictions_nodup (h : request.predictions tables cache = some (list, next)) :
    (list.map Lattice.Candidate.text).Nodup ∧ held next = list := by
  by_cases hcount : request.nBest = 0
  · obtain ⟨rfl, rfl⟩ := predictions_none h hcount
    exact ⟨List.nodup_nil, rfl⟩
  · obtain ⟨fresh, -, hlist, hheld, -⟩ := predictions_spec h hcount
    refine ⟨?_, hheld⟩
    have hall := append_unseen_nodup (unique_nodup (request.stable tables cache)) fresh
    rw [hlist]
    exact hall.sublist (((List.take_sublist _ _).trans List.filter_sublist).map _)

theorem predictions_length (h : request.predictions tables cache = some (list, next)) :
    list.length ≤ request.nBest := by
  by_cases hcount : request.nBest = 0
  · obtain ⟨rfl, -⟩ := predictions_none h hcount
    exact Nat.zero_le _
  · obtain ⟨fresh, -, hlist, -⟩ := predictions_spec h hcount
    exact hlist ▸ List.length_take_le _ _

/-- Step: of the candidates at the front of the cache, those that the request keeps are at the front
of what it shows. -/
theorem keeps_front (hcache : ((held cache).map Lattice.Candidate.text).Nodup)
    (hbase : ∀ kept ∈ cache, kept.base unicode <+: (request.source tables).baseSurface)
    {front : List Lattice.Candidate} (hfront : front <+: held cache)
    (hroom : front.length ≤ request.nBest)
    (h : request.predictions tables cache = some (list, next)) :
    (front.filter (request.keeps tables)).map (consuming request.composing) <+: list := by
  by_cases hcount : request.nBest = 0
  · obtain rfl := List.length_eq_zero_iff.mp (Nat.le_zero.mp (hcount ▸ hroom))
    exact List.nil_prefix
  · obtain ⟨fresh, -, hlist, -, -⟩ := predictions_spec h hcount
    obtain ⟨hnodup, htext⟩ := @stable_nodup _ tables _ request hcache
    have hstable : (front.filter (compatible request.composing (request.source tables))).map
        (consuming request.composing) <+: request.stable tables cache := by
      unfold stable
      cases cache with
      | none =>
        obtain rfl := List.prefix_nil.mp hfront
        simp
      | some cache =>
        have hkept := List.isPrefixOf_iff_prefix.mpr (hbase cache rfl)
        rw [Option.elim_some, StablePredictionCache.compatibleCandidates, if_pos hkept]
        exact (hfront.filter _).map _
    rw [hlist, unique_eq_self hnodup htext, List.prefix_take_iff]
    refine ⟨?_, ?_⟩
    · have hfiltered := hstable.filter fun candidate =>
        request.prefixText.all fun start => start.isPrefixOf candidate.text
      rw [List.filter_map, List.filter_filter] at hfiltered
      rw [List.filter_append]
      refine List.IsPrefix.trans ?_ (List.prefix_append _ _)
      unfold keeps
      simpa [Bool.and_comm, Function.comp_def] using hfiltered
    · rw [List.length_map]
      exact (List.length_filter_le _ _).trans hroom

end PredictionRequest

/-! ### Over runs -/

section
variable {unicode : UnicodeTable} {tables : InputTableRegistry}

/-- Run: what all the requests keep of the front of the cache is the front of what the last one
shows. -/
theorem shown_front {requests : List (PredictionRequest unicode)}
    {cache : Option StablePredictionCache} {front : List Lattice.Candidate}
    {before : List (PredictionRequest unicode × List Lattice.Candidate)}
    {last : PredictionRequest unicode × List Lattice.Candidate}
    (hcache : ((held cache).map Lattice.Candidate.text).Nodup) (hfront : front <+: held cache)
    (h : shown tables cache requests = before ++ [last])
    (hbase : ∀ kept ∈ cache, ∀ entry ∈ (before ++ [last]).head?,
      kept.base unicode <+: (entry.1.source tables).baseSurface)
    (htyped : (before ++ [last]).IsChain fun earlier later =>
      earlier.1.TypedOn tables later.1)
    (hroom : ∀ entry ∈ before ++ [last], front.length ≤ entry.1.nBest) :
    (front.filter fun candidate => (before ++ [last]).all fun entry =>
      entry.1.keeps tables candidate).map (consuming last.1.composing) <+: last.2 := by
  induction requests generalizing cache front before with
  | nil => simp [shown] at h
  | cons request requests ih =>
    rw [shown] at h
    cases hresult : request.predictions tables cache with
    | none =>
      rw [hresult] at h
      exact ih hcache hfront h hbase htyped hroom
    | some result =>
      obtain ⟨list, next⟩ := result
      rw [hresult] at h
      obtain ⟨hnodup, hheld⟩ := PredictionRequest.predictions_nodup hresult
      cases before with
      | nil =>
        obtain ⟨rfl, -⟩ := List.cons.inj h
        simpa using PredictionRequest.keeps_front hcache (fun kept hin => by
          simpa using hbase kept hin) hfront (by simpa using hroom) hresult
      | cons entry before =>
        obtain ⟨rfl, hrest⟩ := List.cons.inj h
        have hstep := PredictionRequest.keeps_front hcache (fun kept hin => by
          simpa using hbase kept hin) hfront (hroom _ List.mem_cons_self) hresult
        rw [List.cons_append, List.isChain_cons] at htyped
        rw [← hheld] at hstep
        have hlater := ih (by rwa [hheld]) hstep hrest ?_ htyped.2 ?_
        · rw [List.filter_map, List.map_map, List.filter_filter] at hlater
          simpa [Function.comp_def, PredictionRequest.keeps, Bool.and_comm, Bool.and_assoc]
            using hlater
        · intro kept hin entry hentry
          by_cases hcount : request.nBest = 0
          · simp [(PredictionRequest.predictions_none hresult hcount).2] at hin
          · obtain ⟨-, -, -, -, hnext⟩ := PredictionRequest.predictions_spec hresult hcount
            rw [hnext kept hin]
            exact htyped.1 entry hentry
        · intro entry hentry
          refine le_trans ?_ (hroom entry (List.mem_cons_of_mem _ hentry))
          rw [List.length_map]
          exact List.length_filter_le _ _

theorem shown_eq_cons {requests : List (PredictionRequest unicode)}
    {cache : Option StablePredictionCache}
    {first : PredictionRequest unicode × List Lattice.Candidate}
    {rest : List (PredictionRequest unicode × List Lattice.Candidate)}
    (h : shown tables cache requests = first :: rest) : ∃ cache next later,
      first.1.predictions tables cache = some (first.2, next) ∧ shown tables next later = rest := by
  induction requests with
  | nil => cases h
  | cons request requests ih =>
    rw [shown] at h
    cases hresult : request.predictions tables cache with
    | none =>
      rw [hresult] at h
      exact ih h
    | some result =>
      rw [hresult] at h
      obtain ⟨rfl, rfl⟩ := List.cons.inj h
      exact ⟨cache, result.2, requests, hresult, rfl⟩

/-- As long as the user types on, the predictions that fit every time stay in front of what is shown
and in their order, if there is room for as many; what is new comes behind them. -/
theorem predictions_stay {cache : Option StablePredictionCache}
    {requests : List (PredictionRequest unicode)}
    {first last : PredictionRequest unicode × List Lattice.Candidate}
    {between : List (PredictionRequest unicode × List Lattice.Candidate)}
    (h : shown tables cache requests = first :: (between ++ [last]))
    (htyped : (first :: (between ++ [last])).IsChain fun earlier later =>
      earlier.1.TypedOn tables later.1)
    (hroom : ∀ entry ∈ between ++ [last], first.2.length ≤ entry.1.nBest) :
    (first.2.filter fun candidate => (between ++ [last]).all fun entry =>
      entry.1.keeps tables candidate).map (consuming last.1.composing) <+: last.2 := by
  obtain ⟨cache, next, later, hfirst, hrest⟩ := shown_eq_cons h
  obtain ⟨hnodup, hheld⟩ := PredictionRequest.predictions_nodup hfirst
  rw [List.isChain_cons] at htyped
  refine shown_front (by rwa [hheld]) (by rw [hheld]) hrest ?_ htyped.2 hroom
  intro kept hkept entry hentry
  by_cases hcount : first.1.nBest = 0
  · simp [(PredictionRequest.predictions_none hfirst hcount).2] at hkept
  · obtain ⟨-, -, -, -, hbase⟩ := PredictionRequest.predictions_spec hfirst hcount
    rw [hbase kept hkept]
    exact htyped.1 entry hentry

/-! ### An example: `かな` and `かなg` after `か` -/

def metalEntry : DictionaryEntry :=
  { word := ['金', '具'], ruby := ['カ', 'ナ', 'グ'], leftId := 1288, rightId := 1288,
    meaningId := 501, baseValue := -6 }

def metal : Lattice.Candidate := .single .kana metalEntry.word (-6) (.surface 1) 501 [metalEntry]

def metalLookups : PredictionLookups .kana where
  toLookups := .empty .kana
  entriesAfterPrefix start _ _ := some
    ([metalEntry].filter fun entry => start.isPrefixOf entry.ruby && entry.ruby ≠ start)
  predict _ := some []

def guTables : InputTableRegistry := romajiTables [(['g', 'u'], ['ぐ'])]

def kanaTyped : ComposingText := ComposingText.new.insertStr .kana guTables ['か'] .direct

def kanaTypedOn : ComposingText := kanaTyped.insertStr .kana guTables ['な'] .direct

def kanaPending : ComposingText := kanaTypedOn.insertStr .kana guTables ['g'] .romanToKana

def kanaRequest (composing : ComposingText) : PredictionRequest .kana where
  lookups := metalLookups
  meaningCost _ _ := 0
  order := .identity
  session := { composing }
  nBest := 3
  additional := []
  prefixText := none

@[simp] theorem kanaRequest_nBest (composing : ComposingText) :
    (kanaRequest composing).nBest = 3 := rfl

@[simp] theorem kanaRequest_composing (composing : ComposingText) :
    (kanaRequest composing).composing = composing := rfl

def kanaCache : StablePredictionCache := ⟨['か'], 0, [metal]⟩

theorem metalLookups_behind (start : Text) : (entriesBehind metalLookups [] start).isSome := rfl

theorem kanaRequest_total (cache : Option StablePredictionCache) {composing : ComposingText}
    (hc : composing.surface = convertElements guTables composing.input)
    (hcount : (katakanaGraphemes .kana composing).length = composing.surface.length) :
    ∃ list next, (kanaRequest composing).predictions guTables cache = some (list, next) := by
  obtain ⟨result, hresult⟩ :=
    @PredictionRequest.predictions_total _ guTables cache (kanaRequest composing)
      metalLookups_behind hc hcount
  exact ⟨result.1, result.2, hresult⟩

theorem metal_kept {list : List Lattice.Candidate} {next : Option StablePredictionCache}
    (h : (kanaRequest kanaTyped).predictions guTables (some kanaCache) = some (list, next)) :
    consuming kanaTyped metal ∈ list := by
  have hkeeps : (kanaRequest kanaTyped).keeps guTables metal = true := by decide +kernel
  have hbase : kanaCache.base .kana <+: ((kanaRequest kanaTyped).source guTables).baseSurface := by
    decide +kernel
  have hcached : held (some kanaCache) = [metal] := rfl
  have hfront := @PredictionRequest.keeps_front _ _ _ _ (kanaRequest kanaTyped) _
    (by simp [hcached]) (by simpa using hbase) _ List.prefix_rfl (by decide +kernel) h
  rw [hcached] at hfront
  exact hfront.subset (by simp [hkeeps])

theorem kanaTyped_wellFormed : kanaTyped.WellFormed guTables := by
  have hquiet : ∀ element ∈ (graphemes .kana ['か']).map fun value =>
      InputElement.character value .direct, element.Quiet guTables := by
    intro element hin
    obtain ⟨value, -, rfl⟩ := List.mem_map.mp hin
    exact quiet_of_piece_ne InputPiece.noConfusion
  exact ComposingText.insert_wellFormed ComposingText.new_wellFormed hquiet fun _ h => h.2 rfl

theorem kana_typedOn : (kanaRequest kanaTyped).TypedOn guTables (kanaRequest kanaTypedOn) := by
  have htyped : (kanaRequest kanaTypedOn).composing =
      kanaTyped.insertStr .kana guTables ['な'] .direct := rfl
  exact PredictionRequest.typedOn_insertStr kanaTyped_wellFormed (by decide +kernel) htyped

theorem pending_typedOn :
    (kanaRequest kanaTypedOn).TypedOn guTables (kanaRequest kanaPending) := by
  have hbase : ((kanaRequest kanaTypedOn).source guTables).baseSurface = ['か', 'な'] := by
    decide +kernel
  refine PredictionRequest.typedOn_of_surface (by rw [hbase]; decide +kernel) ?_
  intro value hvalue
  rw [hbase] at hvalue
  obtain rfl : 'な' = value := Option.some.inj hvalue
  decide

/-- What was predicted for `か` is predicted for `かな` and `かなg` still. -/
theorem predictions_stay_kana : ∃ first second last,
    shown guTables (some kanaCache)
        [kanaRequest kanaTyped, kanaRequest kanaTypedOn, kanaRequest kanaPending] =
      [first, second, last] ∧ consuming kanaPending metal ∈ last.2 := by
  obtain ⟨list, next, hfirst⟩ :=
    @kanaRequest_total (some kanaCache) kanaTyped (by decide +kernel) (by decide +kernel)
  obtain ⟨later, nextLater, hsecond⟩ :=
    @kanaRequest_total next kanaTypedOn (by decide +kernel) (by decide +kernel)
  obtain ⟨final, nextFinal, hlast⟩ :=
    @kanaRequest_total nextLater kanaPending (by decide +kernel) (by decide +kernel)
  have hshown : shown guTables (some kanaCache)
      [kanaRequest kanaTyped, kanaRequest kanaTypedOn, kanaRequest kanaPending] =
        (kanaRequest kanaTyped, list) ::
          ([(kanaRequest kanaTypedOn, later)] ++ [(kanaRequest kanaPending, final)]) := by
    simp [shown, hfirst, hsecond, hlast]
  have hkeeps : (kanaRequest kanaTypedOn).keeps guTables (consuming kanaTyped metal) = true ∧
      (kanaRequest kanaPending).keeps guTables (consuming kanaTyped metal) = true := by
    decide +kernel
  have hin := metal_kept hfirst
  have hroom := PredictionRequest.predictions_length hfirst
  rw [kanaRequest_nBest] at hroom
  have hstay := predictions_stay hshown
    (.cons_cons kana_typedOn (.cons_cons pending_typedOn (.singleton _))) (by simpa using hroom)
  have hleft : consuming kanaTyped metal ∈ list.filter fun candidate =>
      ([(kanaRequest kanaTypedOn, later)] ++ [(kanaRequest kanaPending, final)]).all fun entry =>
        entry.1.keeps guTables candidate := by
    simp [hin, hkeeps]
  have hlater := hstay.subset (List.mem_map.mpr ⟨_, hleft, consuming_consuming _ _ _⟩)
  exact ⟨_, _, _, hshown, hlater⟩

end

end Session

end BeanKey
