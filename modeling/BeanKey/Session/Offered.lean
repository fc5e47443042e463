import BeanKey.Library.Beginning
import BeanKey.Lattice.Conserved
import BeanKey.Session.Stable
import BeanKey.Zenz.Completed

/-! What a session offers as predictions: each reading goes on from what was typed, so that the
prediction can be accepted where it is shown. -/
namespace BeanKey

theorem hiraganaChar_katakanaChar (character : Char) :
    hiraganaChar (katakanaChar character) = hiraganaChar character := by
  by_cases h : 0x3041 ≤ character.toNat ∧ character.toNat ≤ 0x3096
  · rw [katakanaChar, if_pos h, hiraganaChar, toNat_ofNat (.inl (by omega)), if_pos (by omega),
      hiraganaChar, if_neg (by omega), Nat.add_sub_cancel]
    exact Char.ofNat_toNat character
  · rw [katakanaChar, if_neg h]

@[simp] theorem toHiragana_toKatakana (value : Text) :
    toHiragana (toKatakana value) = toHiragana value := by
  rw [toHiragana, toKatakana, List.map_map]
  exact List.map_congr_left fun character _ => hiraganaChar_katakanaChar character

namespace Lattice
open Input
open Beginning (Proper)

structure PredictionLookups.ReadOn {unicode : UnicodeTable} (lookups : PredictionLookups unicode) :
    Prop where
  dictionary : ∀ start depth count entries,
    lookups.entriesAfterPrefix start depth count = some entries →
      ∀ entry ∈ entries, Proper start entry.ruby
  learned : ∀ start entries, lookups.predict start = some entries →
    ∀ entry ∈ entries, Proper start entry.ruby

/-- A prediction takes all that was consumed, and reads on from the start. -/
structure Candidate.Predicts (start : Text) (consumed : Nat) (candidate : Candidate) : Prop where
  text : candidate.text ≠ []
  count : candidate.composingCount = .surface consumed
  reading : Proper start (rubyText candidate.entries)

section
variable {unicode : UnicodeTable} {lookups : PredictionLookups unicode}
  {meaningCost : Nat → Nat → ℚ} {context : ConversionContext}
  {additionalEntries : List DictionaryEntry} {tables : InputTableRegistry}
  {composing : ComposingText} {order : HashOrder}

theorem mem_entriesBehind (hlookups : lookups.ReadOn) {start : Text}
    {entries : List DictionaryEntry}
    (h : entriesBehind lookups additionalEntries start = some entries) {entry : DictionaryEntry}
    (hentry : entry ∈ entries) : Proper start entry.ruby := by
  simp only [entriesBehind, Option.bind_eq_bind, Option.bind_eq_some_iff, Option.pure_def,
    Option.some.injEq] at h
  obtain ⟨found, hfound, learned, hlearned, rfl⟩ := h
  rw [List.mem_append, List.mem_append] at hentry
  obtain (hentry | hentry) | hentry := hentry
  · exact hlookups.dictionary _ _ _ _ hfound entry (List.mem_filter.mp hentry).1
  · simpa [Proper] using (List.mem_filter.mp hentry).2
  · exact hlookups.learned _ _ hlearned entry hentry

theorem mem_uniqueCandidates {candidates : List Candidate} {candidate : Candidate}
    (h : candidate ∈ uniqueCandidates candidates) :
    candidate ∈ candidates ∧ candidate.text ≠ [] := by
  rw [uniqueCandidates, mem_sortByValue] at h
  have hkept := (mem_foldl_insertUnique h).resolve_left List.not_mem_nil
  simpa using List.mem_filter.mp hkept

theorem mem_predictForRubyPrefixes (hlookups : lookups.ReadOn) {rubyPrefixes : List Text}
    {prefixEntries : List DictionaryEntry} {consumed nBest : Nat} {output : List Candidate}
    (h : predictForRubyPrefixes lookups meaningCost context additionalEntries rubyPrefixes
      prefixEntries consumed nBest = some output) {candidate : Candidate}
    (hin : candidate ∈ output) :
    ∃ start ∈ rubyPrefixes, candidate.Predicts (rubyText prefixEntries ++ start) consumed := by
  simp only [predictForRubyPrefixes, Option.bind_eq_bind, Option.bind_eq_some_iff, Option.pure_def,
    Option.some.injEq] at h
  obtain ⟨lists, hlists, rfl⟩ := h
  obtain ⟨hmade, htext⟩ := mem_uniqueCandidates (List.mem_of_mem_take hin)
  rw [mem_sortByValue] at hmade
  obtain ⟨list, hlist, hmember⟩ := List.mem_flatten.mp hmade
  obtain ⟨start, hstart, hbehind⟩ := (Loop.mem_mapM hlists).mp hlist
  obtain ⟨entries, hentries, hmap⟩ := Option.bind_eq_some_iff.mp hbehind
  obtain rfl := Option.some.inj hmap
  obtain ⟨entry, hentry, rfl⟩ := List.mem_map.mp hmember
  refine ⟨start, hstart, htext, rfl, ?_⟩
  have hreads := (mem_entriesBehind hlookups hentries hentry).append (rubyText prefixEntries)
  simpa [predictionOf, Candidate.single, rubyText] using hreads

/-- The loop: a group before any clause reads on from all the entries. -/
theorem mem_predictClauses (hlookups : lookups.ReadOn) {entries : List DictionaryEntry}
    {consumed successfulGroups : Nat} {starts : List Nat} {output result : List Candidate}
    (houtput : ∀ candidate ∈ output, candidate.Predicts (rubyText entries) consumed)
    (h : predictClauses lookups meaningCost context additionalEntries entries consumed starts
      successfulGroups output = some result) :
    ∀ candidate ∈ result, candidate.Predicts (rubyText entries) consumed := by
  induction starts generalizing successfulGroups output with
  | nil =>
    obtain rfl := Option.some.inj h
    exact houtput
  | cons start starts ih =>
    rw [predictClauses] at h
    obtain ⟨predictions, hpredictions, hrest⟩ := Option.bind_eq_some_iff.mp h
    have hgroup : ∀ candidate ∈ output ++ predictions,
        candidate.Predicts (rubyText entries) consumed := by
      intro candidate hin
      obtain hin | hin := List.mem_append.mp hin
      · exact houtput candidate hin
      · obtain ⟨start, hstart, hpredicts⟩ := mem_predictForRubyPrefixes hlookups hpredictions hin
        obtain rfl := List.mem_singleton.mp hstart
        rwa [rubyText, ← List.flatMap_append, List.take_append_drop] at hpredicts
    dsimp only at hrest
    generalize (if predictions = [] then successfulGroups else successfulGroups + 1) = groups
      at hrest
    split at hrest
    · split at hrest
      · obtain ⟨whole, hwhole, hresult⟩ := Option.bind_eq_some_iff.mp hrest
        obtain rfl := Option.some.inj hresult
        intro candidate hin
        obtain hin | hin := List.mem_append.mp hin
        · exact hgroup candidate hin
        · obtain ⟨start, hstart, hpredicts⟩ := mem_predictForRubyPrefixes hlookups hwhole hin
          obtain rfl := List.mem_singleton.mp hstart
          simpa [rubyText] using hpredicts
      · obtain rfl := Option.some.inj hrest
        exact hgroup
    · exact ih hgroup hrest

theorem mem_predictFromCandidate (hlookups : lookups.ReadOn) {converted : Candidate} {nBest : Nat}
    {output : List Candidate}
    (h : predictFromCandidate lookups meaningCost context additionalEntries composing converted
      nBest = some output) {candidate : Candidate} (hin : candidate ∈ output) :
    candidate.Predicts (rubyText converted.entries) composing.surface.length := by
  rw [predictFromCandidate] at h
  split at h
  · obtain rfl := Option.some.inj h
    exact absurd hin List.not_mem_nil
  · obtain ⟨made, hmade, hresult⟩ := Option.bind_eq_some_iff.mp h
    obtain rfl := Option.some.inj hresult
    have hmember := mem_sortByValue.mp (List.mem_of_mem_take hin)
    exact mem_predictClauses hlookups (by simp) hmade candidate (mem_uniqueCandidates hmember).1

/-- What the whole input may be the beginning of starts with all that was not left pending. -/
theorem base_wholeInputPrefixes {start : Text} (h : start ∈ wholeInputPrefixes tables composing) :
    toKatakana (Session.predictiveInputSource tables composing).baseSurface <+: start := by
  have hbase : (Session.predictiveInputSource tables composing).baseSurface <+:
      composing.surfaceText := by
    rw [(Session.predictiveInputSource_base tables composing).1]
    exact List.take_prefix _ _
  rw [wholeInputPrefixes] at h
  split at h
  · obtain rfl := List.mem_singleton.mp h
    exact hbase.map katakanaChar
  · next hpending =>
    rw [Session.lastInputStyle] at h hpending
    cases hlast : composing.input.getLast? with
    | none => simp [hlast] at hpending
    | some last =>
      simp only [hlast, Option.elim_some] at h hpending
      split at h
      · exact absurd h List.not_mem_nil
      · split at h
        · next table htable =>
          obtain ⟨suffix, hsuffix, rfl⟩ := List.mem_map.mp h
          have hnexts := List.ne_nil_of_mem hsuffix
          simp only [Session.predictiveInputSource, hlast, htable, if_neg hpending, if_neg hnexts]
          exact List.prefix_append _ _
        · exact absurd h List.not_mem_nil

theorem mem_predictWithEntries (hlookups : lookups.ReadOn) (hkeyed : Keyed lookups.toLookups)
    (haligned : EntriesAligned lookups.toLookups additionalEntries composing)
    (hc : composing.surface = convertElements tables composing.input)
    (hsurface : composing.surface = graphemes unicode composing.surfaceText) {nBest : Nat}
    {output : List Candidate}
    (h : predictWithEntries lookups meaningCost context additionalEntries order tables composing
      nBest = some output) {candidate : Candidate} (hin : candidate ∈ output) :
    candidate.Predicts (toKatakana (Session.predictiveInputSource tables composing).baseSurface)
      composing.surface.length := by
  have hbase : toKatakana (Session.predictiveInputSource tables composing).baseSurface <+:
      reading composing := by
    rw [(Session.predictiveInputSource_base tables composing).1]
    exact (List.take_prefix _ _).map katakanaChar
  rw [predictWithEntries] at h
  split at h
  · obtain rfl := Option.some.inj h
    exact absurd hin List.not_mem_nil
  · obtain ⟨converted, hconverted, h⟩ := Option.bind_eq_some_iff.mp h
    obtain ⟨predictions, hpredictions, h⟩ := Option.bind_eq_some_iff.mp h
    split at h
    · obtain rfl := Option.some.inj h
      cases hfirst : converted.head? with
      | none =>
        rw [hfirst] at hpredictions
        obtain rfl := Option.some.inj hpredictions
        exact absurd hin List.not_mem_nil
      | some first =>
        rw [hfirst] at hpredictions
        have hpredicts := mem_predictFromCandidate hlookups hpredictions hin
        have hwhole := (convert_conserves hc hsurface hkeyed haligned hconverted
          (List.mem_of_head? hfirst)).1.whole
        rw [hwhole] at hpredicts
        exact ⟨hpredicts.text, hpredicts.count, hpredicts.reading.of_base hbase⟩
    · obtain ⟨start, hstart, hpredicts⟩ := mem_predictForRubyPrefixes hlookups h hin
      rw [← hsurface] at hpredicts
      exact ⟨hpredicts.text, hpredicts.count,
        hpredicts.reading.of_base (base_wholeInputPrefixes hstart)⟩

end

end Lattice

namespace Session
open Input ComposingText
open Beginning (Proper proper_iff)
open BeanKey.Lattice hiding Candidate

section
variable {unicode : UnicodeTable} {tables : InputTableRegistry}

/-- A prediction that reads on from what was typed is accepted at its end. -/
theorem accepts_of_proper {session : ConversionSession} {candidate : Candidate}
    (hne : session.composing.isEmpty = false) (hend : session.composing.isAtEnd = true)
    (h : Proper (toKatakana (predictiveInputSource tables session.composing).baseSurface)
      candidate.reading) :
    ∃ accepted, session.acceptPredictionCandidate unicode tables candidate = some accepted := by
  obtain ⟨rest, hrest, hreading⟩ := proper_iff.mp h
  have hjoined : toHiragana candidate.reading =
      toHiragana (predictiveInputSource tables session.composing).baseSurface ++
        toHiragana rest := by
    rw [hreading, toHiragana, List.map_append, ← toHiragana, ← toHiragana, toHiragana_toKatakana]
  obtain ⟨character, others, hcons⟩ : ∃ character others, toHiragana rest = character :: others :=
    List.exists_cons_of_ne_nil (by simpa [toHiragana] using hrest)
  rw [ConversionSession.acceptPredictionCandidate, hne, hend, hjoined]
  simp [stripPrefix_append, hcons]

namespace PredictionRequest
variable {cache next : Option StablePredictionCache} {request : PredictionRequest unicode}
  {list : List Lattice.Candidate} {candidate : Lattice.Candidate}

/-- A kept prediction reads on from what was typed, unless a pending suffix may come to nothing. -/
theorem mem_stable (hnexts : [] ∉ (request.source tables).possibleNexts)
    (h : candidate ∈ request.stable tables cache) :
    candidate.Predicts (toKatakana (request.source tables).baseSurface)
      request.composing.surface.length := by
  have hbase : toKatakana (request.source tables).baseSurface <+:
      toKatakana request.composing.surfaceText := by
    rw [source, (predictiveInputSource_base tables request.composing).1]
    exact (List.take_prefix _ _).map katakanaChar
  cases cache with
  | none => exact absurd h List.not_mem_nil
  | some cache =>
    simp only [stable, Option.elim_some, StablePredictionCache.compatibleCandidates] at h
    split at h
    · obtain ⟨before, hbefore, rfl⟩ := List.mem_map.mp h
      have hfits := (List.mem_filter.mp hbefore).2
      simp only [compatible, Bool.and_eq_true, decide_eq_true_eq, List.any_eq_true,
        List.isPrefixOf_iff_prefix] at hfits
      obtain ⟨⟨htext, hother⟩, start, hstart, hleads⟩ := hfits
      refine ⟨htext, rfl, ?_⟩
      rw [compatiblePrefixes] at hstart
      split at hstart
      · obtain rfl := List.mem_singleton.mp hstart
        exact .of_base hbase ⟨hleads, hother⟩
      · obtain ⟨suffix, hsuffix, rfl⟩ := List.mem_map.mp hstart
        refine ⟨(List.prefix_append _ _).trans hleads, fun hsame => ?_⟩
        have hlength := hleads.length_le
        rw [show readingOf before = _ from hsame, List.length_append] at hlength
        obtain rfl : suffix = [] := List.length_eq_zero_iff.mp (by omega)
        exact hnexts hsuffix
    · exact absurd h List.not_mem_nil

/-- Whatever is cached, a request shows at most as many predictions as it asks for, with different
texts, that begin with the accepted spelling and take the whole composition; and each can be
accepted where it is shown. -/
theorem predictions_accepted (h : request.predictions tables cache = some (list, next))
    (hreached : Reached unicode tables (fun text edit =>
      InsertsQuietly unicode tables edit ∧ text.InsertsVisibly unicode edit) request.composing)
    (hsurface : request.composing.surface = graphemes unicode request.composing.surfaceText)
    (hkeyed : Keyed request.lookups.toLookups)
    (haligned : EntriesAligned request.lookups.toLookups request.additional request.composing)
    (hlookups : request.lookups.ReadOn) (hnexts : [] ∉ (request.source tables).possibleNexts)
    (hne : request.composing.isEmpty = false) (hend : request.composing.isAtEnd = true) :
    (list.map Lattice.Candidate.text).Nodup ∧ list.length ≤ request.nBest ∧
      ∀ candidate ∈ list, candidate.text ≠ [] ∧
        (∀ start ∈ request.prefixText, start <+: candidate.text) ∧
        candidate.composingCount = .surface request.composing.surface.length ∧
        ∃ accepted, request.session.acceptPredictionCandidate unicode tables
          (accepting candidate) = some accepted := by
  refine ⟨(predictions_nodup h).1, ?_⟩
  by_cases hcount : request.nBest = 0
  · obtain ⟨rfl, -⟩ := predictions_none h hcount
    exact ⟨Nat.zero_le _, by simp⟩
  · obtain ⟨fresh, hfresh, hlist, -⟩ := predictions_spec h hcount
    have hc := (hreached.wellFormed fun _ _ hallowed => hallowed).coherent.surface
    refine ⟨hlist ▸ List.length_take_le _ _, fun candidate hin => ?_⟩
    rw [hlist] at hin
    obtain ⟨hmade, hstarts⟩ := List.mem_filter.mp (List.mem_of_mem_take hin)
    have hpredicts : candidate.Predicts (toKatakana (request.source tables).baseSurface)
        request.composing.surface.length := by
      obtain hkept | hnew := List.mem_append.mp hmade
      · exact mem_stable hnexts (mem_unique hkept)
      · exact mem_predictWithEntries hlookups hkeyed haligned hc hsurface hfresh (mem_unseen hnew)
    refine ⟨hpredicts.text, ?_, hpredicts.count, accepts_of_proper hne hend hpredicts.reading⟩
    intro start hstart
    rw [Option.mem_def] at hstart
    simpa [hstart] using hstarts

/-! ### An example: 蚊花火 behind `かはな` -/

def fireworkEntry : DictionaryEntry :=
  { word := ['花', '火'], ruby := ['ハ', 'ナ', 'ビ'], leftId := 1288, rightId := 1288,
    meaningId := 501, baseValue := -6 }

def fireworks : Lattice.Candidate :=
  .single .kana ['蚊', '花', '火'] (-9) (.surface 3) 501 [kaEntry, fireworkEntry]

/-- Predictions behind 蚊, an entry of the user, with a dictionary that has 花 and 花火. -/
def flowerRequest : PredictionRequest .kana where
  lookups :=
    { toLookups := .flower
      entriesAfterPrefix := fun start _ _ => some
        ([fireworkEntry].filter fun entry => start.isPrefixOf entry.ruby && entry.ruby ≠ start)
      predict := fun _ => some [] }
  meaningCost _ _ := 0
  order := .identity
  session := { composing := kahanaText }
  nBest := 3
  additional := [kaEntry]
  prefixText := some ['蚊']

def flowerCache : StablePredictionCache := ⟨['か', 'は', 'な'], 0, [fireworks]⟩

theorem flowerRequest_readOn : flowerRequest.lookups.ReadOn := by
  refine ⟨?_, by simp [flowerRequest]⟩
  intro start depth count entries hentries entry hentry
  obtain rfl := Option.some.inj hentries
  simpa [Proper] using (List.mem_filter.mp hentry).2

/-- What was cached for the composition is shown, and can be accepted. -/
theorem predictions_accepted_kahana : ∃ list next,
    flowerRequest.predictions endingTables (some flowerCache) = some (list, next) ∧
      ∃ candidate ∈ list, candidate.text = ['蚊', '花', '火'] ∧ ∃ accepted,
        flowerRequest.session.acceptPredictionCandidate .kana endingTables
          (accepting candidate) = some accepted := by
  obtain ⟨⟨list, next⟩, hresult⟩ := @PredictionRequest.predictions_total _ endingTables
    (some flowerCache) flowerRequest (fun _ => rfl) (by decide +kernel) (by decide +kernel)
  have hreached : Reached .kana endingTables (fun text edit =>
      InsertsQuietly .kana endingTables edit ∧ text.InsertsVisibly .kana edit)
      flowerRequest.composing :=
    .edit (.insertStr ['か', 'は', 'な'] .direct) .new
      ⟨(types_insertStr .kana _ .direct).insertsQuietly, fun _ h => h.2 rfl⟩
  have hkeeps : flowerRequest.keeps endingTables fireworks = true := by decide +kernel
  have hbase : flowerCache.base .kana <+: (flowerRequest.source endingTables).baseSurface := by
    decide +kernel
  have hcached : held (some flowerCache) = [fireworks] := rfl
  have hfront := @PredictionRequest.keeps_front _ _ _ _ flowerRequest _
    (by simp [hcached]) (by simpa using hbase) _ List.prefix_rfl (by decide +kernel) hresult
  rw [hcached] at hfront
  have hin := hfront.subset (show consuming flowerRequest.composing fireworks ∈ _ by simp [hkeeps])
  have hoffered := predictions_accepted hresult hreached (by decide +kernel) keyed_flower
    aligned_kahana.1 flowerRequest_readOn (by decide +kernel) (by decide +kernel)
      (by decide +kernel)
  exact ⟨list, next, hresult, _, hin, rfl, (hoffered.2.2 _ hin).2.2.2⟩

end PredictionRequest

end

end Session

end BeanKey
