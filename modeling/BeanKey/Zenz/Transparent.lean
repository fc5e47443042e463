import BeanKey.Zenz.Evaluator

/-! The caches of the evaluator change nothing: its key has everything that an evaluation reads. -/
namespace BeanKey.Zenz
open BeanKey.Lattice Packing

section
variable {F : Type} {unicode : UnicodeTable} {arithmetic : Arithmetic F}
  {model : ZenzLanguageModel F}

/-! ### What an evaluation reads -/

def segmentsOf (entries : List DictionaryEntry) : List CandidateSegment :=
  entries.map fun entry => ⟨entry.word, entry.ruby, entry.metadata.learned⟩

theorem entryPriorities_congr {entries others : List DictionaryEntry}
    (h : segmentsOf entries = segmentsOf others) :
    entryPriorities unicode arithmetic model entries =
      entryPriorities unicode arithmetic model others := by
  induction entries generalizing others with
  | nil =>
    cases others with
    | nil => rfl
    | cons other rest => exact absurd h (by simp [segmentsOf])
  | cons entry rest ih =>
    cases others with
    | nil => exact absurd h (by simp [segmentsOf])
    | cons other others =>
      obtain ⟨hhead, hrest⟩ := List.cons.inj h
      obtain ⟨hword, hruby, hlearned⟩ := CandidateSegment.mk.inj hhead
      rw [entryPriorities, entryPriorities, ih hrest, hword, hruby, hlearned]

theorem learnedTokenPriorities_congr {candidate other : Session.Candidate}
    (h : segmentsOf candidate.entries = segmentsOf other.entries) (tokens : List Token) :
    learnedTokenPriorities unicode arithmetic model candidate tokens =
      learnedTokenPriorities unicode arithmetic model other tokens := by
  have hany : ∀ entries : List DictionaryEntry,
      entries.any (fun entry => entry.metadata.learned) =
        (segmentsOf entries).any CandidateSegment.isLearned := by
    intro entries
    rw [segmentsOf, List.any_map]
    rfl
  rw [learnedTokenPriorities, learnedTokenPriorities, hany, hany, h, entryPriorities_congr h]

/-- Everything that an evaluation reads apart from its prompt. -/
structure SameReview (unicode : UnicodeTable) (request other : ZenzEvaluationRequest F) : Prop where
  candidateText : request.candidateText unicode = other.candidateText unicode
  originalText : request.candidate.text = other.candidate.text
  segments : segmentsOf request.candidate.entries = segmentsOf other.candidate.entries
  constraint : request.prefixConstraint = other.prefixConstraint
  rich : request.requestRichCandidates = other.requestRichCandidates
  personalization : request.personalization = other.personalization

theorem SameReview.evaluateWith {request other : ZenzEvaluationRequest F}
    (h : SameReview unicode request other) (promptTokens : List Token) (reuses : Bool) :
    evaluateWith unicode arithmetic model promptTokens reuses request =
      evaluateWith unicode arithmetic model promptTokens reuses other := by
  have haddressed : addressedTokenCount unicode model reuses request =
      addressedTokenCount unicode model reuses other := by
    rw [addressedTokenCount, addressedTokenCount, addressedPrefix, addressedPrefix, h.originalText,
      h.constraint]
  have htokens : ∀ text count,
      evaluateCandidateTokens unicode arithmetic model request promptTokens text count =
        evaluateCandidateTokens unicode arithmetic model other promptTokens text count := by
    intro text count
    simp only [evaluateCandidateTokens, learnedTokenPriorities_congr h.segments, h.rich,
      h.personalization]
  rw [Zenz.evaluateWith, Zenz.evaluateWith, haddressed, h.candidateText]
  simp only [htokens]

/-- Requests with the same key are evaluated alike. -/
theorem evaluateUncachedAsIs_congr {request other : ZenzEvaluationRequest F} {reuses : Bool}
    {key : EvaluationCacheKey}
    (hkey : ZenzEvaluator.cacheKey unicode reuses request = some key)
    (hkey' : ZenzEvaluator.cacheKey unicode reuses other = some key) :
    evaluateUncachedAsIs unicode arithmetic model reuses request =
      evaluateUncachedAsIs unicode arithmetic model reuses other := by
  have hfields : ∀ {request : ZenzEvaluationRequest F},
      ZenzEvaluator.cacheKey unicode reuses request = some key →
        request.personalization = none ∧ key = {
          prompt := request.prompt unicode
          candidateTextForEvaluation := request.candidateText unicode
          originalCandidateText := request.candidate.text
          prefixConstraint := request.prefixConstraint
          requestRichCandidates := request.requestRichCandidates
          reusesAddressedPrefix := reuses
          candidateSegments := segmentsOf request.candidate.entries } := by
    intro request h
    rw [ZenzEvaluator.cacheKey] at h
    split at h
    · next hnone => exact ⟨Option.isNone_iff_eq_none.mp hnone, (Option.some.inj h).symm⟩
    · exact absurd h (by simp)
  obtain ⟨hnone, rfl⟩ := hfields hkey
  obtain ⟨hnone', hsame⟩ := hfields hkey'
  obtain ⟨hprompt, htext, horiginal, hconstraint, hrich, -, hsegments⟩ :=
    EvaluationCacheKey.mk.inj hsame
  have hreview : SameReview unicode request other :=
    ⟨htext, horiginal, hsegments, hconstraint, hrich, hnone.trans hnone'.symm⟩
  rw [evaluateUncachedAsIs, evaluateUncachedAsIs, hprompt]
  simp only [hreview.evaluateWith]

/-! ### What the caches hold -/

def EvaluationRight (unicode : UnicodeTable) (arithmetic : Arithmetic F)
    (model : ZenzLanguageModel F) (key : EvaluationCacheKey)
    (result : CandidateEvaluation F) : Prop :=
  ∀ request, ZenzEvaluator.cacheKey unicode key.reusesAddressedPrefix request = some key →
    evaluateUncachedAsIs unicode arithmetic model key.reusesAddressedPrefix request = .ok result

structure Sound (unicode : UnicodeTable) (arithmetic : Arithmetic F) (model : ZenzLanguageModel F)
    (evaluator : ZenzEvaluator F) : Prop where
  evaluations : evaluator.evaluations.Holds (EvaluationRight unicode arithmetic model)
  promptTokens : evaluator.promptTokens.Holds fun prompt tokens =>
    tokenizeForModel model prompt true = .ok tokens

theorem sound_new (evaluations promptTokens : Nat) :
    Sound unicode arithmetic model (.new evaluations promptTokens) :=
  ⟨LruCache.holds_new _, LruCache.holds_new _⟩

theorem cacheKey_reuses {reuses : Bool} {request : ZenzEvaluationRequest F}
    {key : EvaluationCacheKey}
    (h : ZenzEvaluator.cacheKey unicode reuses request = some key) :
    key.reusesAddressedPrefix = reuses := by
  rw [ZenzEvaluator.cacheKey] at h
  split at h
  · obtain rfl := Option.some.inj h
    rfl
  · exact absurd h (by simp)

namespace Sound
variable {evaluator : ZenzEvaluator F} (h : Sound unicode arithmetic model evaluator)
include h

theorem remember (prompt : Text) :
    Sound unicode arithmetic model { evaluator with previousEvaluationPrompt := prompt } :=
  ⟨h.evaluations, h.promptTokens⟩

theorem getEvaluation (reuses : Bool) (request : ZenzEvaluationRequest F) :
    Sound unicode arithmetic model
        (evaluator.getEvaluation (ZenzEvaluator.cacheKey unicode reuses request)).2 ∧
      ∀ result, (evaluator.getEvaluation (ZenzEvaluator.cacheKey unicode reuses request)).1 =
        some result → evaluateUncachedAsIs unicode arithmetic model reuses request =
          .ok result := by
  cases hkey : ZenzEvaluator.cacheKey unicode reuses request with
  | none => exact ⟨h, fun _ hsome => absurd hsome (by simp [ZenzEvaluator.getEvaluation])⟩
  | some key =>
    refine ⟨⟨h.evaluations.get key, h.promptTokens⟩, fun result hsome => ?_⟩
    have hright := h.evaluations.of_get hsome
    rw [EvaluationRight, cacheKey_reuses hkey] at hright
    exact hright request hkey

theorem getPromptTokens (prompt : Text) :
    (evaluator.getPromptTokens model prompt).1 = tokenizeForModel model prompt true ∧
      Sound unicode arithmetic model (evaluator.getPromptTokens model prompt).2 := by
  have hget := h.promptTokens.get prompt
  rw [ZenzEvaluator.getPromptTokens]
  cases hfound : evaluator.promptTokens.get prompt with
  | mk found promptTokens =>
    rw [hfound] at hget
    cases found with
    | some tokens =>
      have hright := h.promptTokens.of_get (congrArg Prod.fst hfound)
      exact ⟨hright.symm, h.evaluations, hget⟩
    | none =>
      cases htokens : tokenizeForModel model prompt true with
      | error error => exact ⟨rfl, h.evaluations, hget⟩
      | ok tokens => exact ⟨rfl, h.evaluations, hget.insert htokens⟩

theorem insertEvaluation {reuses : Bool} {request : ZenzEvaluationRequest F}
    {result : CandidateEvaluation F}
    (hresult : evaluateUncachedAsIs unicode arithmetic model reuses request = .ok result) :
    Sound unicode arithmetic model
      (evaluator.insertEvaluation (ZenzEvaluator.cacheKey unicode reuses request) result) := by
  cases hkey : ZenzEvaluator.cacheKey unicode reuses request with
  | none => exact h
  | some key =>
    refine ⟨h.evaluations.insert ?_, h.promptTokens⟩
    rw [EvaluationRight, cacheKey_reuses hkey]
    intro other hother
    rw [evaluateUncachedAsIs_congr hother hkey, hresult]

theorem evaluateAsIs (request : ZenzEvaluationRequest F) :
    (evaluator.evaluateAsIs unicode arithmetic model request).1 =
        evaluateUncachedAsIs unicode arithmetic model
          (evaluator.reusesAddressedPrefix unicode request) request ∧
      Sound unicode arithmetic model
        (evaluator.evaluateAsIs unicode arithmetic model request).2 := by
  rw [ZenzEvaluator.evaluateAsIs]
  generalize evaluator.reusesAddressedPrefix unicode request = reuses
  have hremembered := h.remember (normalizeForModel (request.prompt unicode))
  generalize (⟨evaluator.evaluations, evaluator.promptTokens,
    normalizeForModel (request.prompt unicode)⟩ : ZenzEvaluator F) = remembered at hremembered ⊢
  have hkept := hremembered.getEvaluation reuses request
  cases hfound : remembered.getEvaluation (ZenzEvaluator.cacheKey unicode reuses request) with
  | mk found kept =>
    rw [hfound] at hkept
    obtain ⟨hkept, hhit⟩ := hkept
    cases found with
    | some cached => exact ⟨(hhit cached rfl).symm, hkept⟩
    | none =>
      dsimp only at hkept ⊢
      obtain ⟨htokens, htokenized⟩ := hkept.getPromptTokens (request.prompt unicode)
      cases hprompt : kept.getPromptTokens model (request.prompt unicode) with
      | mk tokens evaluator =>
        rw [hprompt] at htokens htokenized
        dsimp only at htokens htokenized
        cases tokens with
        | error error => exact ⟨by rw [evaluateUncachedAsIs, ← htokens]; rfl, htokenized⟩
        | ok tokens =>
          dsimp only
          have huncached : evaluateUncachedAsIs unicode arithmetic model reuses request =
              evaluateWith unicode arithmetic model tokens reuses request := by
            rw [evaluateUncachedAsIs, ← htokens]
            rfl
          rw [huncached]
          cases hresult : evaluateWith unicode arithmetic model tokens reuses request with
          | error error => exact ⟨rfl, htokenized⟩
          | ok result => exact ⟨rfl, htokenized.insertEvaluation (huncached.trans hresult)⟩

end Sound

/-! ### Any sequence of requests -/

namespace ZenzEvaluator

/-- Whether an evaluation reuses the prefix that is addressed already. -/
def decision (unicode : UnicodeTable) (evaluator : ZenzEvaluator F)
    (request : ZenzEvaluationRequest F) : Bool :=
  match fixedRequest unicode request with
  | .asIs => evaluator.reusesAddressedPrefix unicode request
  | .invalid _ => false
  | .behind _ _ remaining => evaluator.reusesAddressedPrefix unicode remaining

def run (unicode : UnicodeTable) (arithmetic : Arithmetic F) (model : ZenzLanguageModel F) :
    ZenzEvaluator F → List (ZenzEvaluationRequest F) →
      List (Bool × Except ZenzInferenceError (CandidateEvaluation F))
  | _, [] => []
  | evaluator, request :: requests =>
    let (result, next) := evaluator.evaluate unicode arithmetic model request
    (evaluator.decision unicode request, result) :: run unicode arithmetic model next requests

end ZenzEvaluator

theorem Sound.evaluate {evaluator : ZenzEvaluator F} (h : Sound unicode arithmetic model evaluator)
    (request : ZenzEvaluationRequest F) :
    (evaluator.evaluate unicode arithmetic model request).1 =
        evaluateUncached unicode arithmetic model (evaluator.decision unicode request) request ∧
      Sound unicode arithmetic model (evaluator.evaluate unicode arithmetic model request).2 := by
  rw [ZenzEvaluator.evaluate, evaluateUncached, ZenzEvaluator.decision]
  cases fixedRequest unicode request with
  | asIs => exact h.evaluateAsIs request
  | invalid error => exact ⟨rfl, h⟩
  | behind fixed fixedText remaining =>
    obtain ⟨hresult, hsound⟩ := h.evaluateAsIs remaining
    exact ⟨congrArg (Except.map (prependFixed fixed fixedText)) hresult, hsound⟩

theorem Sound.run {evaluator : ZenzEvaluator F} (h : Sound unicode arithmetic model evaluator)
    (requests : List (ZenzEvaluationRequest F)) :
    (evaluator.run unicode arithmetic model requests).map Prod.snd =
      List.zipWith (fun reuses request => evaluateUncached unicode arithmetic model reuses request)
        ((evaluator.run unicode arithmetic model requests).map Prod.fst) requests := by
  induction requests generalizing evaluator with
  | nil => rfl
  | cons request requests ih =>
    obtain ⟨hresult, hsound⟩ := h.evaluate request
    rw [ZenzEvaluator.run]
    simp only [List.map_cons, List.zipWith_cons_cons, ih hsound, hresult]

end

/-- With caches of any capacity, every request of any sequence is answered as without them, by an
evaluation that is told the same decisions. -/
theorem cache_transparent {F : Type} (unicode : UnicodeTable) (arithmetic : Arithmetic F)
    (model : ZenzLanguageModel F) (evaluations promptTokens : Nat)
    (requests : List (ZenzEvaluationRequest F)) :
    ((ZenzEvaluator.new evaluations promptTokens).run unicode arithmetic model requests).map
    Prod.snd =
      List.zipWith (fun reuses request => evaluateUncached unicode arithmetic model reuses request)
        (((ZenzEvaluator.new evaluations promptTokens).run unicode arithmetic model requests).map
          Prod.fst) requests :=
  (sound_new evaluations promptTokens).run requests

end BeanKey.Zenz
