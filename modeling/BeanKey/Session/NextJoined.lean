import BeanKey.Session.NextInput
import BeanKey.Library.Loop

/-! What the cache of the next input shows, against what was predicted: they agree exactly where
what was typed since ends between two graphemes. -/
namespace BeanKey.Session
open Input Zenz
open LmTypo (Functions LanguageModel)

section
variable (unicode : UnicodeTable) {σ F : Type} [Field F] [LinearOrder F] (functions : Functions F)
  (model : LanguageModel σ F) (tables : InputTableRegistry)

/-! ### What a prediction goes on from -/

/-- As many graphemes of the text as the part has alone are the part. -/
def WholeGraphemes (text part : Text) : Prop :=
  ((graphemes unicode text).take (graphemes unicode part).length).flatten = part

/-- What is shown behind the surface goes on to the prediction behind its base, or to a part of it
where the requested length cuts it. -/
def GoesOn (base predicted surface remaining : Text) (count : Nat) : Prop :=
  toHiragana (surface ++ remaining) = toHiragana (base ++ predicted) ∨
    (graphemes unicode remaining).length = count ∧
      toHiragana (surface ++ remaining) <+: toHiragana (base ++ predicted)

instance (base predicted surface remaining : Text) (count : Nat) :
    Decidable (GoesOn unicode base predicted surface remaining count) :=
  inferInstanceAs (Decidable (_ ∨ _))

/-- The cached prediction is about the text: `typed` stands behind the base and begins it. -/
structure ZenzPredictionCache.Matches (cache : ZenzPredictionCache) (composing : ComposingText)
    (typed : Text) : Prop where
  inputStyle : cache.inputStyle = lastInputStyle composing
  surface : composing.surfaceText = cache.base unicode ++ typed
  predicted : typed <+: cache.predictedInsert

/-- Nothing is left to show, or the letters of the pending suffix were graphemes of their own and
what was typed since ends between two graphemes of the prediction. -/
def ZenzPredictionCache.Aligned (cache : ZenzPredictionCache) (base typed : Text) : Prop :=
  (graphemes unicode cache.predictedText).drop (graphemes unicode typed).length = [] ∨
    cache.base unicode = base ∧ WholeGraphemes unicode cache.predictedInsert typed

variable {unicode} {functions} {model} {tables}
variable {cache : ZenzPredictionCache} {composing : ComposingText}

variable (unicode) in
/-- The cached base is never longer than the surface without its pending suffix. -/
theorem base_prefix {base suffix : Text} (hsurface : cache.originalSurface = base ++ suffix)
    (hcount : suffix.length = cache.suffixCount) : cache.base unicode <+: base :=
  take_graphemes_prefix unicode hsurface hcount

theorem toHiragana_predictedInsert (cache : ZenzPredictionCache) :
    toHiragana cache.predictedInsert = toHiragana cache.predictedText := by
  unfold ZenzPredictionCache.predictedInsert
  split
  · exact toHiragana_toHiragana _
  · rfl

/-- What stands behind the typed part: the rest of the grapheme it ends in, and the graphemes that
the cache has left to show. -/
theorem behind_typed {typed : Text} (h : typed <+: cache.predictedInsert) :
    ∃ joined, (WholeGraphemes unicode cache.predictedInsert typed ↔ joined = []) ∧
      toHiragana cache.predictedText = toHiragana (typed ++ joined ++
        ((graphemes unicode cache.predictedText).drop
          (graphemes unicode typed).length).flatten) := by
  obtain ⟨behind, hbehind⟩ := h
  obtain ⟨joined, rest, rfl, htake, hdrop⟩ := graphemes_append unicode typed behind
  rw [hbehind] at htake hdrop
  refine ⟨joined, ?_, ?_⟩
  · rw [WholeGraphemes, htake]
    exact List.append_right_eq_self
  · have hgraphemes : (graphemes unicode cache.predictedText).map toHiragana =
        (graphemes unicode cache.predictedInsert).map toHiragana := by
      rw [← graphemes_toHiragana, ← graphemes_toHiragana, toHiragana_predictedInsert]
    have hrest : toHiragana (((graphemes unicode cache.predictedText).drop
        (graphemes unicode typed).length).flatten) = toHiragana rest := by
      unfold toHiragana at hgraphemes ⊢
      rw [List.map_flatten, List.map_drop, hgraphemes, ← List.map_drop, hdrop, ← List.map_flatten,
        flatten_graphemes]
    rw [← toHiragana_predictedInsert, ← hbehind]
    unfold toHiragana at hrest ⊢
    rw [List.map_append, List.map_append, List.map_append, List.map_append, hrest,
      List.append_assoc]

theorem remainingPrediction_eq_some {count : Nat} {remaining : Text} :
    cache.remainingPrediction unicode composing count = some remaining ↔
      count ≠ 0 ∧ ∃ typed, composing.surfaceText = cache.base unicode ++ typed ∧
        typed <+: cache.predictedInsert ∧ remaining ≠ [] ∧
        (((graphemes unicode cache.predictedText).drop (graphemes unicode typed).length).take
          count).flatten = remaining := by
  unfold ZenzPredictionCache.remainingPrediction
  by_cases hcount : count = 0
  · simp [hcount]
  · rw [if_neg hcount]
    constructor
    · intro h
      obtain ⟨typed, hstrip, h⟩ := Option.bind_eq_some_iff.mp h
      obtain ⟨behind, hbehind, h⟩ := Option.bind_eq_some_iff.mp h
      dsimp only at h
      split at h
      · cases h
      · next hne =>
        obtain rfl := Option.some.inj h
        exact ⟨hcount, typed, append_of_stripPrefix hstrip,
          ⟨behind, (append_of_stripPrefix hbehind).symm⟩, hne, rfl⟩
    · rintro ⟨-, typed, hsurface, ⟨behind, hbehind⟩, hne, rfl⟩
      simp only [hsurface, ← hbehind, stripPrefix_append, Option.bind_eq_bind, Option.bind_some]
      exact if_neg hne

/-- Where the texts meet between two graphemes, what is shown goes on to the prediction. -/
theorem goesOn_of_aligned {typed base : Text} {count : Nat}
    (hbase : cache.base unicode = base)
    (hwhole : WholeGraphemes unicode cache.predictedInsert typed)
    (hstarts : typed <+: cache.predictedInsert) :
    GoesOn unicode base cache.predictedText (cache.base unicode ++ typed)
      (((graphemes unicode cache.predictedText).drop (graphemes unicode typed).length).take
        count).flatten count := by
  obtain ⟨joined, hjoined, hbehind⟩ := behind_typed hstarts
  rw [hjoined.mp hwhole, List.append_nil] at hbehind
  generalize hleft : (graphemes unicode cache.predictedText).drop (graphemes unicode typed).length =
    left
    at hbehind
  have htotal : toHiragana (base ++ cache.predictedText) =
      toHiragana (base ++ typed ++ left.flatten) := by
    unfold toHiragana at hbehind ⊢
    rw [List.map_append, hbehind, ← List.map_append, List.append_assoc]
  rw [hbase, GoesOn, htotal]
  by_cases hcut : left.length ≤ count
  · exact .inl (by rw [List.take_of_length_le hcut])
  · refine .inr ⟨?_, ?_⟩
    · rw [← hleft, graphemes_take_drop, List.length_take, hleft]
      omega
    · refine ⟨toHiragana (left.drop count).flatten, ?_⟩
      unfold toHiragana
      rw [← List.map_append, List.append_assoc, ← List.flatten_append, List.take_append_drop]

/-- Every requested length goes on to the prediction exactly where the texts meet between
graphemes. -/
theorem goesOn_iff_aligned {typed base suffix : Text}
    (hsurface : cache.originalSurface = base ++ suffix) (hcount : suffix.length = cache.suffixCount)
    (hstarts : typed <+: cache.predictedInsert) :
    (∀ count remaining, count ≠ 0 → remaining ≠ [] →
      (((graphemes unicode cache.predictedText).drop (graphemes unicode typed).length).take
        count).flatten = remaining →
      GoesOn unicode base cache.predictedText (cache.base unicode ++ typed) remaining count) ↔
      cache.Aligned unicode base typed := by
  constructor
  · intro h
    by_cases hleft : (graphemes unicode cache.predictedText).drop (graphemes unicode typed).length =
      []
    · exact .inl hleft
    · right
      obtain ⟨joined, hjoined, hbehind⟩ := behind_typed hstarts
      have hgraphemes := graphemes_drop unicode cache.predictedText (graphemes unicode typed).length
      generalize hrest : (graphemes unicode cache.predictedText).drop
        (graphemes unicode typed).length =
        left at hleft hbehind hgraphemes h
      have hne : left.flatten ≠ [] := by
        intro hnil
        rw [hnil, graphemes_nil] at hgraphemes
        exact hleft hgraphemes.symm
      -- A request for more than is left is not cut, so the lengths have to agree.
      have hlengths : (cache.base unicode).length = base.length + joined.length := by
        have htext := congrArg List.length hbehind
        cases h (left.length + 1) left.flatten (Nat.succ_ne_zero _) hne
            (by rw [List.take_of_length_le (Nat.le_succ _)]) with
        | inl hsame =>
          have hsame' := congrArg List.length hsame
          simp only [toHiragana, List.length_map, List.length_append] at htext hsame'
          omega
        | inr hcut =>
          rw [hgraphemes] at hcut
          omega
      have hbase := base_prefix unicode hsurface hcount
      have hle := hbase.length_le
      exact ⟨hbase.eq_of_length (by omega), hjoined.mpr (List.length_eq_zero_iff.mp (by omega))⟩
  · rintro (hnone | ⟨hbase, hwhole⟩) count remaining - hne rfl
    · exact absurd (by simp [hnone]) hne
    · exact goesOn_of_aligned hbase hwhole hstarts

/-! ### Over the edits of a session -/

theorem cachedPrediction_eq_some {state : NextInputSession}
    (hcache : state.zenzPredictionCache = some cache)
    {version : ZenzVersionConfig} {leftContext : Text} {count : Nat} {remaining : Text} :
    state.cachedPrediction unicode version leftContext count = some remaining ↔
      (cache.leftContext = leftContext ∧ cache.version = version ∧
        cache.inputStyle = lastInputStyle state.session.composing) ∧
      cache.remainingPrediction unicode state.session.composing count = some remaining := by
  simp only [NextInputSession.cachedPrediction, hcache, Option.bind_eq_bind, Option.bind_some]
  split
  · next h => simp [h]
  · next h => simp [h]

variable (unicode functions model tables) in
/-- The model answered this request with what is cached. -/
def Cached (cache : ZenzPredictionCache) (before next : NextInputSession) : Prop :=
  cache = predictionCache tables before.session.composing cache.version cache.leftContext
    cache.predictedText ∧
    next.zenzPredictionCache = some cache ∧
    ∃ version leftContext count maxEntropy answering answered dropped,
      predictNextInputText unicode functions model tables before version leftContext
        count maxEntropy
        answering = .ok ((cache.predictedText, dropped), next, answered)

variable {state : NextInputSession}

/-- What is cached was the answer to an earlier request, and was kept since. -/
theorem cached_of_reached
    (hrun : Relation.ReflTransGen (NextInputStep unicode functions model tables) {} state)
    (hcache : state.zenzPredictionCache = some cache) :
    ∃ before next,
      Relation.ReflTransGen (NextInputStep unicode functions model tables) {} before ∧
        Cached unicode functions model tables cache before next ∧
        Relation.ReflTransGen (NextInputStep unicode functions model tables) next state := by
  induction hrun with
  | refl => cases hcache
  | @tail state last hstate hstep ih =>
    cases hstep with
    | edit session =>
      obtain ⟨before, next, hbefore, hcached, hnext⟩ := ih hcache
      exact ⟨before, next, hbefore, hcached, hnext.tail (.edit session)⟩
    | discard session => cases hcache
    | @request _ version leftContext count maxEntropy answering answered prediction h =>
      have hrequest := h
      unfold predictNextInputText at h
      split at h
      · cases h
        exact ih hcache
      · obtain ⟨⟨predictedText, answered'⟩, hgenerated, h⟩ := Loop.bind_eq_ok.mp h
        cases h
        by_cases hempty : predictedText = []
        · simp [hempty] at hcache
        · simp only [if_neg hempty, Option.some.injEq] at hcache
          subst hcache
          exact ⟨state, _, hstate, ⟨rfl, if_neg hempty, version, leftContext, count, maxEntropy,
            answering, _, _, hrequest⟩, .refl⟩

variable (unicode) in
/-- Whatever is asked for, an answer of the cache goes on to the prediction behind the base. -/
def NextInputSession.Joins (state : NextInputSession) (cache : ZenzPredictionCache)
    (base : Text) : Prop :=
  ∀ version leftContext count remaining,
    state.cachedPrediction unicode version leftContext count = some remaining →
    GoesOn unicode base cache.predictedText state.session.composing.surfaceText remaining count

variable (unicode) in
/-- Where the cache is about the text, the texts meet between graphemes. -/
def NextInputSession.Meets (state : NextInputSession) (cache : ZenzPredictionCache)
    (base : Text) : Prop :=
  ∀ typed, cache.Matches unicode state.session.composing typed → cache.Aligned unicode base typed

theorem joins_iff_meets (hcache : state.zenzPredictionCache = some cache) {base suffix : Text}
    (hsurface : cache.originalSurface = base ++ suffix)
    (hcount : suffix.length = cache.suffixCount) :
    state.Joins unicode cache base ↔ state.Meets unicode cache base := by
  constructor
  · intro h typed hmatches
    apply (goesOn_iff_aligned hsurface hcount hmatches.predicted).mp
    intro count remaining hne hremaining heq
    rw [← hmatches.surface]
    exact h cache.version cache.leftContext count remaining ((cachedPrediction_eq_some hcache).mpr
      ⟨⟨rfl, rfl, hmatches.inputStyle⟩, remainingPrediction_eq_some.mpr
        ⟨hne, typed, hmatches.surface, hmatches.predicted, hremaining, heq⟩⟩)
  · intro h version leftContext count remaining hanswer
    obtain ⟨⟨-, -, hstyle⟩, hremaining⟩ := (cachedPrediction_eq_some hcache).mp hanswer
    obtain ⟨hne, typed, htyped, hstarts, hnonempty, heq⟩ :=
      remainingPrediction_eq_some.mp hremaining
    rw [htyped]
    exact (goesOn_iff_aligned hsurface hcount hstarts).mpr (h typed ⟨hstyle, htyped, hstarts⟩) count
      remaining hne hnonempty heq

/-- In every state of a session that has a prediction cached: all answers of the cache join the text
to the prediction behind the base of the request that made it exactly where the texts meet between
graphemes. And where the letters of the pending suffix were graphemes of their own, an answer is
only given to a text that the prediction goes on from. -/
theorem cached_joins_iff
    (hrun : Relation.ReflTransGen (NextInputStep unicode functions model tables) {} state)
    (hcache : state.zenzPredictionCache = some cache) :
    ∃ before next base,
      Relation.ReflTransGen (NextInputStep unicode functions model tables) {} before ∧
        Cached unicode functions model tables cache before next ∧
        Relation.ReflTransGen (NextInputStep unicode functions model tables) next state ∧
        base = (predictiveInputSource tables before.session.composing).baseSurface ∧
        (state.Joins unicode cache base ↔ state.Meets unicode cache base) ∧
        (cache.base unicode = base → ∀ version leftContext count remaining,
          state.cachedPrediction unicode version leftContext count = some remaining →
          toHiragana state.session.composing.surfaceText <+:
            toHiragana (base ++ cache.predictedText)) := by
  obtain ⟨before, next, hbefore, hcached, hnext⟩ := cached_of_reached hrun hcache
  obtain ⟨suffix, hsurface, hcount, -⟩ :=
    predictiveInputSource_split tables before.session.composing
  have horiginal : cache.originalSurface = before.session.composing.surfaceText := by
    rw [hcached.1]; rfl
  have hsuffix : suffix.length = cache.suffixCount := by rw [hcached.1]; exact hcount
  refine ⟨before, next, _, hbefore, hcached, hnext, rfl,
    joins_iff_meets hcache (horiginal.trans hsurface) hsuffix, ?_⟩
  intro hbase version leftContext count remaining hanswer
  obtain ⟨-, hremaining⟩ := (cachedPrediction_eq_some hcache).mp hanswer
  obtain ⟨-, typed, htyped, ⟨behind, hbehind⟩, -⟩ := remainingPrediction_eq_some.mp hremaining
  refine ⟨toHiragana behind, ?_⟩
  unfold toHiragana
  rw [htyped, hbase, List.map_append, List.map_append]
  have hpredicted := toHiragana_predictedInsert cache
  unfold toHiragana at hpredicted
  rw [← hpredicted, ← hbehind, List.map_append, List.append_assoc]

end

/-! ### A sound mark of its own -/

/-- Functions that are right at the arguments of the model below: it asks for no entropy. -/
def linear : Functions ℚ := ⟨fun value => value + 1, fun value => value - 1, id, fun _ => true⟩

/-- Three pieces that follow each other: a syllable, a sound mark behind it, and another
syllable. -/
def marking : LanguageModel Unit ℚ where
  vocabularySize _ := 4
  tokenize text _ state := .ok ([if text = ['か'] then 0 else if text = ['\u3099'] then 1
    else if text = ['き'] then 2 else 3], state)
  tokenToPiece token state := (.ok (utf8 (if token = 0 then ['か'] else if token = 1 then ['\u3099']
    else if token = 2 then ['き'] else [])), state)
  nextLogits tokens state := .ok (if tokens.getLast? = some 3 then [9, 0, 0, 0]
    else if tokens.getLast? = some 0 then [0, 9, 0, 0] else [0, 0, 9, 0], state)

def noTables : InputTableRegistry := ⟨.empty, .empty, .empty, .empty, fun _ => none⟩

def directText (graphemes : List Grapheme) : ComposingText :=
  ⟨graphemes.length, graphemes.map fun grapheme => .character grapheme .direct, graphemes⟩

def markedPrediction : Text := ['か', '\u3099', 'き']

def markedCache : ZenzPredictionCache :=
  predictionCache noTables (directText [['あ']]) (.v3 {}) [] markedPrediction

theorem predict_marked : predictNextInputText UnicodeTable.kana linear marking noTables
    { session := { composing := directText [['あ']] } } (.v3 {}) [] 3 none () =
      .ok ((markedPrediction, 0), ⟨{ composing := directText [['あ']] }, some markedCache⟩, ()) := by
  have hgenerated : generateNextInput UnicodeTable.kana linear marking
      ⟨[], ['あ'], 3, 1, none, .v3 {}, []⟩ () = .ok (markedPrediction, ()) := by decide +kernel
  have hsource : predictiveInputSource noTables (directText [['あ']]) = ⟨['あ'], [], 0⟩ := rfl
  simp only [predictNextInputText, NextInputSession.cachedPrediction, Option.bind_eq_bind,
    Option.bind_none, hsource, hgenerated]
  rfl

theorem reaches_typed (typed : ConversionSession) :
    Relation.ReflTransGen (NextInputStep UnicodeTable.kana linear marking noTables) {}
      ⟨typed, some markedCache⟩ :=
  ((Relation.ReflTransGen.single (.edit { composing := directText [['あ']] })).tail
    (.request predict_marked)).tail (.edit typed)

/-- Behind the syllable without its mark, the mark is lost. -/
theorem typed_syllable_loses_mark :
    ∃ (state : NextInputSession) (remaining : Text),
      Relation.ReflTransGen (NextInputStep UnicodeTable.kana linear marking noTables) {} state ∧
        state.session.composing.surfaceText = ['あ', 'か'] ∧
        state.cachedPrediction UnicodeTable.kana (.v3 {}) [] 3 = some remaining ∧
        ¬GoesOn UnicodeTable.kana ['あ'] markedPrediction ['あ', 'か'] remaining 3 :=
  ⟨⟨{ composing := directText [['あ'], ['か']] }, some markedCache⟩, ['き'], reaches_typed _, rfl,
    by decide +kernel, by decide +kernel⟩

theorem cached_joins_iff_marked :
    ∃ before next base, Cached UnicodeTable.kana linear marking noTables markedCache before next ∧
      base = (predictiveInputSource noTables before.session.composing).baseSurface ∧
      ((⟨{ composing := directText [['あ'], ['か', '\u3099']] }, some markedCache⟩ :
        NextInputSession).Joins UnicodeTable.kana markedCache base ↔
      (⟨{ composing := directText [['あ'], ['か', '\u3099']] }, some markedCache⟩ :
        NextInputSession).Meets UnicodeTable.kana markedCache base) := by
  obtain ⟨before, next, base, -, hcached, -, hbase, hiff, -⟩ :=
    cached_joins_iff (reaches_typed { composing := directText [['あ'], ['か', '\u3099']] }) rfl
  exact ⟨before, next, base, hcached, hbase, hiff⟩

end BeanKey.Session
