import BeanKey.Lattice.Seeds
import BeanKey.Zenz.Accepted

/-! What a conversion reports: a candidate that its last evaluation passed, under a constraint that
the start or earlier evaluations gave. The caches of the evaluator change nothing about it. -/
namespace BeanKey.Zenz
open BeanKey.Lattice hiding Candidate
open Packing Asking
open Session (Candidate ConversionSession)

section
variable {F : Type} (unicode : UnicodeTable) (arithmetic : Arithmetic F)
  (model : ZenzLanguageModel F)

/-! ### Evaluations of a conversion -/

/-- The request that is evaluated: behind the fixed prefix, where there is one. -/
def evaluatedRequest (request : ZenzEvaluationRequest F) : Option (ZenzEvaluationRequest F) :=
  match fixedRequest unicode request with
  | .asIs => some request
  | .invalid _ => none
  | .behind _ _ remaining => some remaining

def promptOf (request : ZenzEvaluationRequest F) : Option Text :=
  (evaluatedRequest unicode request).map fun evaluated =>
    normalizeForModel (evaluated.prompt unicode)

def rememberedPrompt (start : Text) (log : Log (Question F) Question.Answer) : Text :=
  log.foldl (fun prompt event =>
    match event.1 with
    | .draft _ _ => prompt
    | .evaluate request => (promptOf unicode request).getD prompt) start

/-- The addressed prefix is reused where the last evaluation had the same prompt and no rich
candidates are asked for. -/
def reusesAfter (start : Text) (log : Log (Question F) Question.Answer)
    (request : ZenzEvaluationRequest F) : Bool :=
  promptOf unicode request = some (rememberedPrompt unicode start log) &&
    !request.requestRichCandidates

/-- What an evaluation of the request says of the tokens behind the fixed prefix. -/
def Reviewed (reuses : Bool) (request : ZenzEvaluationRequest F) (result : CandidateEvaluation F) :
    Prop :=
  match fixedRequest unicode request with
  | .asIs => ∃ review : TokenReview F, review.Of unicode arithmetic model reuses request ∧
      review.Ends arithmetic model request result
  | .invalid _ => False
  | .behind fixed fixedText remaining => ∃ behind, result = prependFixed fixed fixedText behind ∧
      ∃ review : TokenReview F, review.Of unicode arithmetic model reuses remaining ∧
        review.Ends arithmetic model remaining behind

/-- What the answers may be, after the prompt remembered at the start and what was asked. -/
def MayAnswer (start : Text) (log : Log (Question F) Question.Answer) :
    (question : Question F) → question.Answer → Prop
  | .draft _ _, _ => True
  | .evaluate request, result => result =
      evaluateUncached unicode arithmetic model (reusesAfter unicode start log request) request

/-- The converter drafts, and the evaluator evaluates and keeps its state. -/
def conversionService (draft : Nat → PrefixConstraint → Option (List Candidate)) :
    Service (ZenzEvaluator F) (Question F) Question.Answer
  | evaluator, .draft nBest constraint => (draft nBest constraint, evaluator)
  | evaluator, .evaluate request => evaluator.evaluate unicode arithmetic model request

variable {unicode arithmetic model}

theorem evaluateUncached_reviewed {reuses : Bool} {request : ZenzEvaluationRequest F}
    {result : CandidateEvaluation F}
    (h : evaluateUncached unicode arithmetic model reuses request = .ok result) :
    Reviewed unicode arithmetic model reuses request result := by
  rw [evaluateUncached] at h
  rw [Reviewed]
  cases hfixed : fixedRequest unicode request with
  | asIs =>
    rw [hfixed] at h
    exact evaluateUncachedAsIs_ends h
  | invalid error =>
    rw [hfixed] at h
    cases h
  | behind fixed fixedText remaining =>
    rw [hfixed] at h
    dsimp only at h
    cases hbehind : evaluateUncachedAsIs unicode arithmetic model reuses remaining with
    | error error =>
      rw [hbehind] at h
      cases h
    | ok behind =>
      rw [hbehind] at h
      cases h
      exact ⟨behind, rfl, evaluateUncachedAsIs_ends hbehind⟩

theorem fixedRequest_rich {request remaining : ZenzEvaluationRequest F} {fixed : Bytes}
    {fixedText : Text} (h : fixedRequest unicode request = .behind fixed fixedText remaining) :
    remaining.requestRichCandidates = request.requestRichCandidates := by
  rw [fixedRequest] at h
  split at h
  · cases h
  · dsimp only at h
    split at h
    · cases h
    · split at h
      · cases h
      · cases h
        rfl

namespace ZenzEvaluator
variable (evaluator : ZenzEvaluator F)

@[simp] theorem getEvaluation_prompt (key : Option EvaluationCacheKey) :
    (evaluator.getEvaluation key).2.previousEvaluationPrompt =
      evaluator.previousEvaluationPrompt := by
  cases key <;> rfl

@[simp] theorem insertEvaluation_prompt (key : Option EvaluationCacheKey)
    (result : CandidateEvaluation F) :
    (evaluator.insertEvaluation key result).previousEvaluationPrompt =
      evaluator.previousEvaluationPrompt := by
  cases key <;> rfl

@[simp] theorem getPromptTokens_prompt (prompt : Text) :
    (evaluator.getPromptTokens model prompt).2.previousEvaluationPrompt =
      evaluator.previousEvaluationPrompt := by
  rw [getPromptTokens]
  split
  · rfl
  · split <;> rfl

theorem evaluateAsIs_prompt (request : ZenzEvaluationRequest F) :
    (evaluator.evaluateAsIs unicode arithmetic model request).2.previousEvaluationPrompt =
      normalizeForModel (request.prompt unicode) := by
  rw [evaluateAsIs]
  split
  · next found kept hfound =>
    have hkept := congrArg (fun found => found.2.previousEvaluationPrompt) hfound
    rw [getEvaluation_prompt] at hkept
    exact hkept.symm
  · next kept hfound =>
    have hkept := congrArg (fun found => found.2.previousEvaluationPrompt) hfound
    rw [getEvaluation_prompt] at hkept
    split
    · next error after hprompt =>
      have hafter := congrArg (fun found => found.2.previousEvaluationPrompt) hprompt
      rw [getPromptTokens_prompt] at hafter
      exact hafter.symm.trans hkept.symm
    · next promptTokens after hprompt =>
      have hafter := congrArg (fun found => found.2.previousEvaluationPrompt) hprompt
      rw [getPromptTokens_prompt] at hafter
      split
      · exact hafter.symm.trans hkept.symm
      · rw [insertEvaluation_prompt]
        exact hafter.symm.trans hkept.symm

theorem evaluate_prompt (request : ZenzEvaluationRequest F) :
    (evaluator.evaluate unicode arithmetic model request).2.previousEvaluationPrompt =
      (promptOf unicode request).getD evaluator.previousEvaluationPrompt := by
  rw [evaluate, promptOf, evaluatedRequest]
  cases fixedRequest unicode request with
  | asIs => exact evaluator.evaluateAsIs_prompt request
  | invalid error => rfl
  | behind fixed fixedText remaining => exact evaluator.evaluateAsIs_prompt remaining

theorem decision_eq (request : ZenzEvaluationRequest F) :
    evaluator.decision unicode request =
      (promptOf unicode request = some evaluator.previousEvaluationPrompt &&
        !request.requestRichCandidates) := by
  rw [decision, promptOf, evaluatedRequest]
  cases hfixed : fixedRequest unicode request with
  | asIs => simp [reusesAddressedPrefix, eq_comm]
  | invalid error => rfl
  | behind fixed fixedText remaining =>
    simp [reusesAddressedPrefix, fixedRequest_rich hfixed, eq_comm]

end ZenzEvaluator

/-! ### A conversion -/

/-- The evaluator answers as without its caches. -/
theorem conversionService_answers (draft : Nat → PrefixConstraint → Option (List Candidate))
    {start : Text} {log : Log (Question F) Question.Answer} {evaluator : ZenzEvaluator F}
    (hsound : Sound unicode arithmetic model evaluator)
    (hprompt : evaluator.previousEvaluationPrompt = rememberedPrompt unicode start log)
    (question : Question F) :
    let answered := conversionService unicode arithmetic model draft evaluator question
    MayAnswer unicode arithmetic model start log question answered.1 ∧
      Sound unicode arithmetic model answered.2 ∧
      answered.2.previousEvaluationPrompt =
        rememberedPrompt unicode start (log ++ [⟨question, answered.1⟩]) := by
  intro answered
  cases question with
  | draft nBest constraint =>
    refine ⟨trivial, hsound, ?_⟩
    rw [rememberedPrompt, List.foldl_append]
    exact hprompt
  | evaluate request =>
    obtain ⟨hresult, hkept⟩ := hsound.evaluate request
    refine ⟨?_, hkept, ?_⟩
    · rw [evaluator.decision_eq request, hprompt] at hresult
      exact hresult
    · rw [rememberedPrompt, List.foldl_append]
      exact (evaluator.evaluate_prompt request).trans (by rw [hprompt]; rfl)

/-- The bytes are those at the start, or what a rejection of the log gave. -/
def GivenBy (initial : Bytes) (log : Log (Question F) Question.Answer) (bytes : Bytes) : Prop :=
  bytes = initial ∨ ∃ request ignores,
    (∃ fixed, ⟨.evaluate request, .ok (.fixRequired fixed)⟩ ∈ log ∧
      bytes = (PrefixConstraint.normalized fixed false ignores).bytes) ∨
    ∃ whole, ⟨.evaluate request, .ok (.wholeResult whole)⟩ ∈ log ∧
      bytes = (PrefixConstraint.normalized (utf8 whole) true ignores).bytes

def Question.IsDraft : Question F → Prop
  | .draft _ _ => True
  | .evaluate _ => False

/-- The last evaluation is a pass of the reported candidate, under a constraint that is given. -/
def Reports (input : ConversionInput F) (initial : Bytes) (log : Log (Question F) Question.Answer)
    (value : Option Converted) : Prop :=
  ∀ converted candidate, value = some converted → converted.reviewed = .ok (some candidate) →
    ∃ before after constraint score alternatives,
      log = before ++ ⟨.evaluate (input.request constraint candidate),
        .ok (.pass score alternatives)⟩ :: after ∧
      (∀ event ∈ after, event.1.IsDraft) ∧ GivenBy initial before constraint.bytes

section
variable {input : ConversionInput F} {initial : Bytes} {quarter half : F}
  {may : Log (Question F) Question.Answer → (question : Question F) → question.Answer → Prop}
  {log : Log (Question F) Question.Answer}

theorem GivenBy.concat {bytes : Bytes} (h : GivenBy initial log bytes)
    (event : (question : Question F) × question.Answer) :
    GivenBy initial (log ++ [event]) bytes := by
  rcases h with hinitial | ⟨request, ignores, hgiven⟩
  · exact .inl hinitial
  · refine .inr ⟨request, ignores, ?_⟩
    rcases hgiven with ⟨fixed, hin, hbytes⟩ | ⟨whole, hin, hbytes⟩
    · exact .inl ⟨fixed, List.mem_append_left _ hin, hbytes⟩
    · exact .inr ⟨whole, List.mem_append_left _ hin, hbytes⟩

theorem reports_none {candidates : List Candidate} {cache : ZenzConversionCache} :
    Reports input initial log (some ⟨.ok none, candidates, cache⟩) := by
  intro converted candidate hvalue hreviewed
  cases hvalue
  cases hreviewed

theorem reports_panic : Reports input initial log none :=
  fun _ _ hvalue => nomatch hvalue

theorem reviewRejection_bytes (constraint next : PrefixConstraint) (candidates : List Candidate)
    (index : Nat) (candidate : Candidate) :
    (reviewRejection constraint next candidates index candidate).2.bytes = next.bytes := by
  rw [reviewRejection]
  dsimp only
  split
  · next hsame =>
    subst hsame
    split <;> rfl
  · split <;> rfl

theorem insertRichCandidates_ensures (constructed : List Candidate)
    (alternatives : List (AlternativeConstraint F)) (inserted : List Candidate) :
    Program.Ensures may log
      (insertRichCandidates arithmetic quarter half constructed alternatives inserted)
      fun whole _ => ∃ after, whole = log ++ after ∧ ∀ event ∈ after, event.1.IsDraft := by
  induction alternatives generalizing inserted log with
  | nil => exact ⟨[], (List.append_nil _).symm, fun _ hin => absurd hin List.not_mem_nil⟩
  | cons alternative rest ih =>
    rw [insertRichCandidates]
    split
    · dsimp only
      split
      · exact ih _
      · split
        · intro draft _
          have hdrafted : ∀ inserted, Program.Ensures may (log ++ [⟨.draft 3 _, draft⟩])
              (insertRichCandidates arithmetic quarter half constructed rest inserted)
              fun whole _ => ∃ after, whole = log ++ after ∧ ∀ event ∈ after, event.1.IsDraft := by
            intro inserted
            apply (ih inserted).mono
            rintro whole _ ⟨after, rfl, hdrafts⟩
            refine ⟨⟨.draft 3 _, draft⟩ :: after, by rw [List.append_assoc]; rfl, ?_⟩
            exact List.forall_mem_cons.mpr ⟨trivial, hdrafts⟩
          cases draft with
          | none =>
            exact ⟨[⟨.draft 3 _, none⟩], rfl, fun event hin => by
              rw [List.mem_singleton.mp hin]; trivial⟩
          | some draft =>
            dsimp only
            split
            · exact hdrafted _
            · exact hdrafted _
        · exact ih _
    · exact ih _

theorem searchDraft_ensures {constraint : PrefixConstraint} {constructed inserted : List Candidate}
    {goOn : Review → Asks F Converted} (hgiven : GivenBy initial log constraint.bytes)
    (hgoOn : ∀ log review, GivenBy initial log review.constraint.bytes →
      Program.Ensures may log (goOn review) (Reports input initial)) :
    Program.Ensures may log (searchDraft input constraint constructed inserted goOn)
      (Reports input initial) := by
  intro draft _
  cases draft with
  | none => exact reports_panic
  | some draft =>
    dsimp only
    cases bestCandidate draft with
    | none => exact reports_none
    | some best => exact hgoOn _ _ (hgiven.concat _)

theorem rejected_ensures {next : PrefixConstraint} {review : Review}
    {goOn : Review → Asks F Converted} (hgiven : GivenBy initial log next.bytes)
    (hgoOn : ∀ log review, GivenBy initial log review.constraint.bytes →
      Program.Ensures may log (goOn review) (Reports input initial)) :
    Program.Ensures may log (rejected input next review goOn) (Reports input initial) := by
  have hbytes := reviewRejection_bytes review.constraint
    { next with fixedPrefix := review.constraint.fixedPrefix } review.draft review.candidateIndex
    review.candidate
  rw [rejected]
  split
  · exact reports_none
  · next index candidate constraint hrejected =>
    rw [hrejected] at hbytes
    apply hgoOn
    rw [show constraint.bytes = next.bytes from hbytes]
    exact hgiven
  · next constraint hrejected =>
    rw [hrejected] at hbytes
    apply searchDraft_ensures _ hgoOn
    rw [show constraint.bytes = next.bytes from hbytes]
    exact hgiven

/-- The loops report only what the last evaluation passed. -/
theorem reviewLoop_ensures (remaining : Nat) (review : Review)
    (hgiven : GivenBy initial log review.constraint.bytes) :
    Program.Ensures may log (reviewLoop arithmetic quarter half input remaining review)
      (Reports input initial) := by
  induction remaining generalizing log review with
  | zero => exact reports_none
  | succ remaining ih =>
    rw [reviewLoop]
    dsimp only
    split
    · exact reports_none
    · intro result _
      cases result with
      | error error =>
        intro converted candidate hvalue hreviewed
        cases hvalue
        cases hreviewed
      | ok result =>
        cases result with
        | pass score alternatives =>
          have hreports : ∀ (after : Log (Question F) Question.Answer)
              (finished : Option Converted),
              (∀ event ∈ after, event.1.IsDraft) →
              (∀ converted, finished = some converted →
                converted.reviewed = .ok (some review.candidate)) →
              Reports input initial (log ++ [⟨.evaluate (input.request review.constraint
                review.candidate), .ok (.pass score alternatives)⟩] ++ after) finished := by
            intro after finished hdrafts hfinished converted candidate hvalue hreviewed
            have hsame := (hfinished converted hvalue).symm.trans hreviewed
            cases hsame
            exact ⟨log, after, review.constraint, score, alternatives, by simp, hdrafts, hgiven⟩
          dsimp only
          split
          · apply Program.Ensures.bind
            apply (insertRichCandidates_ensures _ _ _).mono
            rintro whole inserted ⟨after, rfl, hdrafts⟩
            apply hreports after _ hdrafts
            intro converted hfinished
            obtain ⟨inserted, -, rfl⟩ := Option.map_eq_some_iff.mp hfinished
            rfl
          · have hplain := fun finished => hreports [] finished
              fun _ hin => absurd hin List.not_mem_nil
            simp only [List.append_nil] at hplain
            apply hplain
            intro converted hvalue
            cases hvalue
            rfl
        | fixRequired bytes =>
          apply rejected_ensures _ fun log review => ih review
          exact .inr ⟨_, _, .inl ⟨bytes, List.mem_append_right _ (List.mem_singleton_self _), rfl⟩⟩
        | wholeResult whole =>
          apply rejected_ensures _ fun log review => ih review
          exact .inr ⟨_, _, .inr ⟨whole, List.mem_append_right _ (List.mem_singleton_self _), rfl⟩⟩

theorem convert_ensures (unicode : UnicodeTable) (tables : Input.InputTableRegistry)
    (session : ConversionSession) (cache : ZenzConversionCache)
    (options : ZenzConversionOptions F) :
    Program.Ensures may [] (convert arithmetic quarter half unicode tables session cache options)
      (Reports (conversionInput tables session cache options)
        (initialConstraint unicode session cache).bytes) :=
  searchDraft_ensures (.inl rfl) fun _ review hgiven => reviewLoop_ensures _ review hgiven

end

end

/-! ### Conversions one after the other -/

/-- A conversion, with the dictionary, the session and the cache it finds. -/
structure ConversionCall (unicode : UnicodeTable) (F : Type) where
  lookups : Lookups unicode
  meaningCost : Nat → Nat → ℚ
  order : HashOrder
  tables : Input.InputTableRegistry
  additionalEntries : List DictionaryEntry
  session : ConversionSession
  cache : ZenzConversionCache
  options : ZenzConversionOptions F

section
variable {F : Type} {unicode : UnicodeTable} (arithmetic : Arithmetic F)
  (model : ZenzLanguageModel F) (quarter half : F)

namespace ConversionCall
variable (call : ConversionCall unicode F)

def draft : Nat → PrefixConstraint → Option (List Candidate) :=
  call.session.requestZenzDraft call.lookups call.meaningCost call.order call.tables
    call.additionalEntries

def run (evaluator : ZenzEvaluator F) :
    Ran (Question F) Question.Answer (ZenzEvaluator F) (Option Converted) :=
  (convert arithmetic quarter half unicode call.tables call.session call.cache call.options).run
    (conversionService unicode arithmetic model call.draft) evaluator

def evaluatorAfter (evaluator : ZenzEvaluator F) (calls : List (ConversionCall unicode F)) :
    ZenzEvaluator F :=
  calls.foldl (fun evaluator call => (call.run arithmetic model quarter half evaluator).state)
    evaluator

end ConversionCall

variable {arithmetic model quarter half}

/-- What a conversion asked and reported, from any state of the caches that is right. -/
theorem Sound.conversion {evaluator : ZenzEvaluator F}
    (hsound : Sound unicode arithmetic model evaluator)
    (call : ConversionCall unicode F) :
    let ran := call.run arithmetic model quarter half evaluator
    Reports (conversionInput call.tables call.session call.cache call.options)
        (initialConstraint unicode call.session call.cache).bytes ran.log ran.value ∧
      Program.Allowed (MayAnswer unicode arithmetic model evaluator.previousEvaluationPrompt) []
        ran.log ∧
      Sound unicode arithmetic model ran.state := by
  intro ran
  have hensures := @convert_ensures F arithmetic quarter half
    (MayAnswer unicode arithmetic model evaluator.previousEvaluationPrompt) unicode call.tables
    call.session call.cache call.options
  have hservice := fun log after question (h : Sound unicode arithmetic model after ∧
      after.previousEvaluationPrompt =
        rememberedPrompt unicode evaluator.previousEvaluationPrompt log) =>
    conversionService_answers call.draft h.1 h.2 question
  obtain ⟨hreports, hallowed, hsoundAfter, -⟩ := hensures.run _ hservice ⟨hsound, rfl⟩
  exact ⟨hreports, hallowed, hsoundAfter⟩

theorem Sound.evaluatorAfter {evaluator : ZenzEvaluator F}
    (hsound : Sound unicode arithmetic model evaluator) (calls : List (ConversionCall unicode F)) :
    Sound unicode arithmetic model
      (ConversionCall.evaluatorAfter arithmetic model quarter half evaluator calls) := by
  induction calls generalizing evaluator with
  | nil => exact hsound
  | cons call calls ih => exact ih (hsound.conversion call).2.2

end

/-- After any conversions, whatever the cache of this one holds: a reported candidate is the one
that the last evaluation passed, and each evaluation accepted every token up to where it ended,
apart from an addressed prefix. -/
theorem convert_reported {F : Type} (unicode : UnicodeTable) (arithmetic : Arithmetic F)
    (model : ZenzLanguageModel F) (quarter half : F) (evaluations promptTokens : Nat)
    (history : List (ConversionCall unicode F)) (call : ConversionCall unicode F) :
    let evaluator := ConversionCall.evaluatorAfter arithmetic model quarter half
      (.new evaluations promptTokens) history
    let ran := call.run arithmetic model quarter half evaluator
    Reports (conversionInput call.tables call.session call.cache call.options)
        (initialConstraint unicode call.session call.cache).bytes ran.log ran.value ∧
      ∀ before request result after,
        ran.log = before ++ ⟨.evaluate request, .ok result⟩ :: after →
        Reviewed unicode arithmetic model
          (reusesAfter unicode evaluator.previousEvaluationPrompt before request)
            request result := by
  intro evaluator ran
  have hsound : Sound unicode arithmetic model evaluator :=
    (sound_new evaluations promptTokens).evaluatorAfter history
  obtain ⟨hreports, hallowed, -⟩ := hsound.conversion call
  refine ⟨hreports, fun before request result after hlog => ?_⟩
  have hresult : MayAnswer unicode arithmetic model evaluator.previousEvaluationPrompt
      ([] ++ before) (.evaluate request) (.ok result) :=
    Program.Allowed.event (hlog ▸ hallowed)
  exact evaluateUncached_reviewed hresult.symm

/-! ### A candidate that no evaluation accepted -/

section
variable {F : Type} (unicode : UnicodeTable) (arithmetic : Arithmetic F)
  (model : ZenzLanguageModel F)

/-- The evaluations of a log, and whether each reuses the addressed prefix. -/
def evaluationsAfter (start : Text) (before : Log (Question F) Question.Answer) :
    Log (Question F) Question.Answer → List (Bool × ZenzEvaluationRequest F)
  | [] => []
  | event :: rest =>
    (match event.1 with
    | .draft _ _ => []
    | .evaluate request => [(reusesAfter unicode start before request, request)]) ++
      evaluationsAfter start (before ++ [event]) rest

/-- An evaluation of the log accepted the last of the tokens, behind the others and under the
prompt. -/
def AcceptedIn (start : Text) (log : Log (Question F) Question.Answer) (prompt : Text)
    (tokens : List Token) : Prop :=
  ∃ evaluation ∈ evaluationsAfter unicode start [] log, ∃ evaluated,
    evaluatedRequest unicode evaluation.2 = some evaluated ∧
    normalizeForModel (evaluated.prompt unicode) = prompt ∧ ∃ review : TokenReview F,
      review.Of unicode arithmetic model evaluation.1 evaluated ∧
      review.tokens.take tokens.length = tokens ∧ review.addressed < tokens.length ∧
      review.AcceptsTo arithmetic model evaluated tokens.length

end

def exactArithmetic : Arithmetic Int where
  zero := 0
  epsilon := 0
  ofNat count := count
  add := (· + ·)
  sub := (· - ·)
  mul := (· * ·)
  exp := id
  ln := id
  lt left right := decide (left < right)
  le left right := decide (left ≤ right)
  isZero value := decide (value = 0)
  totalCmp := compare

def characterTokens : List (Char × Token) := [('葉', 1), ('歯', 3), ('市', 4)]

/-- A token for each character. The best one after the prompt is `歯`, and then `葉`. -/
def characterModel : ZenzLanguageModel Int where
  vocabularySize := 5
  eosToken := 2
  tokenize text addSpecial :=
    if addSpecial then .ok [0]
    else .ok (text.map fun character => (characterTokens.lookup character).getD 0)
  tokenToPiece token :=
    .ok (utf8 ((characterTokens.filter fun entry => entry.2 = token).map Prod.fst))
  logitsForSuffix tokens start :=
    .ok ((List.range (tokens.length - start)).flatMap fun index =>
      if start + index = 0 then [0, 0, 0, 1, 0] else [0, 1, 0, 0, 0])

def draftsOf (log : Log (Question Int) Question.Answer) : List (Nat × PrefixConstraint) :=
  log.filterMap fun event =>
    match event.1 with
    | .draft nBest constraint => some (nBest, constraint)
    | .evaluate _ => none

namespace ConversionCall
variable {unicode : UnicodeTable} (call : ConversionCall unicode Int)

def plainDraft (nBest : Nat) (constraint : PrefixConstraint) : List Candidate :=
  let constraint := call.session.constrainZenzPrefix unicode constraint
  (((((latticeResults call.lookups call.session.context nBest call.order call.tables
    { additionalEntries := call.additionalEntries
      constraint := if constraint.isEmpty then none else some constraint }
    call.session.composing).getD []).map
      (makeCandidate call.lookups call.meaningCost call.session.context)).filter fun candidate =>
        candidate.text ≠ []).foldl insertUnique []).map fun candidate =>
    { text := candidate.text
      value := candidate.value
      composingCount := candidate.composingCount
      lastMeaningId := candidate.lastMeaningId
      entries := candidate.entries
      isLearningTarget := candidate.isLearningTarget }

def plainRun (evaluator : ZenzEvaluator Int) :
    Ran (Question Int) Question.Answer (ZenzEvaluator Int) (Option Converted) :=
  (convert exactArithmetic 0 0 unicode call.tables call.session call.cache call.options).run
    (conversionService unicode exactArithmetic characterModel fun nBest constraint =>
      some (call.plainDraft nBest constraint)) evaluator

variable {call}

theorem draft_of_falling {nBest : Nat} {constraint constrained : PrefixConstraint}
    {results : List RegisteredPath}
    (hconstrained : call.session.constrainZenzPrefix unicode constraint = constrained)
    (hresults : latticeResults call.lookups call.session.context nBest call.order call.tables
      { additionalEntries := call.additionalEntries
        constraint := if constrained.isEmpty then none else some constrained }
      call.session.composing = some results)
    (hfalling : (results.map
      (makeCandidate call.lookups call.meaningCost call.session.context)).Pairwise
        fun left right => right.value ≤ left.value)
    (hkept : (((results.map
      (makeCandidate call.lookups call.meaningCost call.session.context)).filter fun candidate =>
        candidate.text ≠ []).foldl insertUnique []).Pairwise
          fun left right => right.value ≤ left.value) :
    call.draft nBest constraint = some (call.plainDraft nBest constraint) := by
  have hconvert := convert_of_falling hresults hfalling hkept
  rw [draft, ConversionSession.requestZenzDraft, plainDraft, hconstrained, hconvert, hresults]
  rfl

theorem run_eq_plainRun {evaluator : ZenzEvaluator Int}
    (h : ∀ asked ∈ draftsOf (call.plainRun evaluator).log,
      call.draft asked.1 asked.2 = some (call.plainDraft asked.1 asked.2)) :
    call.run exactArithmetic characterModel 0 0 evaluator = call.plainRun evaluator := by
  apply Program.run_congr
  rintro ⟨question, answer⟩ hin state
  cases question with
  | draft nBest constraint =>
    have hasked := h (nBest, constraint) (List.mem_filterMap.mpr ⟨_, hin, rfl⟩)
    exact congrArg (·, state) hasked
  | evaluate request => rfl

end ConversionCall

def pairEntry (word : Text) (baseValue : ℚ) : DictionaryEntry :=
  { word, ruby := ['カ'], leftId := 0, rightId := 0, meaningId := 0, baseValue }

/-- Two words of two characters, the better one with a token that the model has no use for. -/
def pairLookups : Lookups .kana where
  matchesFromStart ruby maximumLength :=
    if ruby = ['カ'] ∧ 0 < maximumLength then
      [⟨1, [pairEntry ['葉', '市'] 0, pairEntry ['歯', '市'] (-1)]⟩]
    else []
  matches_within := by
    intro ruby maximumLength found hfound
    split at hfound
    · next hasked =>
      obtain ⟨rfl, hpos⟩ := hasked
      obtain rfl := List.mem_singleton.mp hfound
      have hcount : (graphemes .kana ['カ']).length = 1 := rfl
      rw [hcount]
      exact ⟨Nat.one_pos, le_min hpos le_rfl⟩
    · exact absurd hfound List.not_mem_nil
  exactMatch _ := []
  connectionCost _ _ := 0
  learnedMatches _ _ := []
  learnedExact _ := []

def pairCall (cache : ZenzConversionCache) : ConversionCall .kana Int where
  lookups := pairLookups
  meaningCost _ _ := 0
  order := .identity
  tables := Input.endingTables
  additionalEntries := []
  session := { composing := kanaText }
  cache
  options :=
    { version := .v3 {}
      requestRichCandidates := false
      inferenceLimit := 1
      personalization := none }

def pairDraft (nBest : Nat) (constraint : PrefixConstraint) : List Candidate :=
  (((((latticeResults pairLookups {} nBest .identity Input.endingTables
    { constraint := if constraint.isEmpty then none else some constraint } kanaText).getD []).map
      (makeCandidate pairLookups (fun _ _ => 0) {})).filter fun candidate =>
        candidate.text ≠ []).foldl insertUnique []).map fun candidate =>
    { text := candidate.text
      value := candidate.value
      composingCount := candidate.composingCount
      lastMeaningId := candidate.lastMeaningId
      entries := candidate.entries
      isLearningTarget := candidate.isLearningTarget }

theorem pairCall_draft {cache : ZenzConversionCache} {nBest : Nat} {constraint : PrefixConstraint}
    {results : List RegisteredPath}
    (hresults : latticeResults pairLookups {} nBest .identity Input.endingTables
      { constraint := if constraint.isEmpty then none else some constraint } kanaText =
        some results)
    (hfalling : (results.map (makeCandidate pairLookups (fun _ _ => 0) {})).Pairwise
      fun left right => right.value ≤ left.value)
    (hkept : (((results.map (makeCandidate pairLookups (fun _ _ => 0) {})).filter fun candidate =>
      candidate.text ≠ []).foldl insertUnique []).Pairwise
        fun left right => right.value ≤ left.value) :
    (pairCall cache).draft nBest constraint = some (pairDraft nBest constraint) :=
  @ConversionCall.draft_of_falling _ (pairCall cache) _ _ _ _ rfl hresults hfalling hkept

def pairRun (cache : ZenzConversionCache) (evaluator : ZenzEvaluator Int) :
    Ran (Question Int) Question.Answer (ZenzEvaluator Int) (Option Converted) :=
  (convert exactArithmetic 0 0 .kana Input.endingTables { composing := kanaText } cache
    (pairCall cache).options).run
      (conversionService .kana exactArithmetic characterModel fun nBest constraint =>
        some (pairDraft nBest constraint)) evaluator

theorem pairCall_run {cache : ZenzConversionCache} {evaluator : ZenzEvaluator Int}
    (h : ∀ asked ∈ draftsOf (pairRun cache evaluator).log,
      (pairCall cache).draft asked.1 asked.2 = some (pairDraft asked.1 asked.2)) :
    (pairCall cache).run exactArithmetic characterModel 0 0 evaluator =
      pairRun cache evaluator :=
  @ConversionCall.run_eq_plainRun _ (pairCall cache) evaluator h

def cutOff : Ran (Question Int) Question.Answer (ZenzEvaluator Int) (Option Converted) :=
  (pairCall {}).run exactArithmetic characterModel 0 0 (.new 256 128)

/-- The second one finds the candidate that was drafted last in its cache. -/
def afterCutOff : Ran (Question Int) Question.Answer (ZenzEvaluator Int) (Option Converted) :=
  (pairCall ((cutOff.value.map Converted.cache).getD {})).run exactArithmetic characterModel 0 0
    cutOff.state

theorem cutOff_eq : cutOff = pairRun {} (.new 256 128) := by
  apply pairCall_run
  have hasked : draftsOf (pairRun {} (.new 256 128)).log = [(2, {})] := by decide +kernel
  rw [hasked, List.forall_mem_singleton]
  have hresults : latticeResults pairLookups {} 2 .identity Input.endingTables {} kanaText =
      some ((latticeResults pairLookups {} 2 .identity Input.endingTables {} kanaText).getD
        []) := by
    decide +kernel
  exact pairCall_draft hresults (by decide +kernel) (by decide +kernel)

theorem afterCutOff_eq : afterCutOff =
    pairRun (((pairRun {} (.new 256 128)).value.map Converted.cache).getD {})
      (pairRun {} (.new 256 128)).state := by
  rw [afterCutOff, cutOff_eq]
  apply pairCall_run
  have hasked : draftsOf (pairRun (((pairRun {} (.new 256 128)).value.map Converted.cache).getD {})
      (pairRun {} (.new 256 128)).state).log = [(1, { bytes := utf8 ['歯', '市'] })] := by
    decide +kernel
  rw [hasked, List.forall_mem_singleton]
  have hresults : latticeResults pairLookups {} 1 .identity Input.endingTables
      { constraint := some { bytes := utf8 ['歯', '市'] } } kanaText =
        some ((latticeResults pairLookups {} 1 .identity Input.endingTables
          { constraint := some { bytes := utf8 ['歯', '市'] } } kanaText).getD []) := by
    decide +kernel
  exact pairCall_draft hresults (by decide +kernel) (by decide +kernel)

/-- What an evaluation works on, and how many of its tokens are addressed. -/
def evaluatedText (evaluation : Bool × ZenzEvaluationRequest Int) : Option (Text × Option Nat) :=
  match evaluatedRequest .kana evaluation.2 with
  | none => none
  | some evaluated =>
    some (evaluated.candidateText .kana,
      (addressedTokenCount .kana characterModel evaluation.1 evaluated).toOption)

/-- The one evaluation of a log says nothing of the last token: its text has other tokens, or the
last one is addressed. -/
theorem not_acceptedIn {start prompt text : Text} {log : Log (Question Int) Question.Answer}
    {tokens found : List Token} {count : Nat}
    (htexts : (evaluationsAfter .kana start [] log).map evaluatedText = [some (text, some count)])
    (hfound : tokenizeForModel characterModel text false = .ok found)
    (hapart : found.take tokens.length = tokens → tokens.length ≤ min count found.length) :
    ¬AcceptedIn .kana exactArithmetic characterModel start log prompt tokens := by
  rintro ⟨evaluation, hin, evaluated, hevaluated, -, review, hof, htake, hlt, -⟩
  have hmem := List.mem_map_of_mem (f := evaluatedText) hin
  rw [htexts, List.mem_singleton, evaluatedText, hevaluated] at hmem
  obtain ⟨other, hother, haddressed⟩ := hof.addressed
  have hpair := Option.some.inj hmem
  rw [hother] at hpair
  have htext : evaluated.candidateText .kana = text := congrArg Prod.fst hpair
  have hcount : other = count := Option.some.inj (congrArg Prod.snd hpair)
  have htokens : review.tokens = found :=
    Except.ok.inj (hof.tokens.symm.trans (htext ▸ hfound))
  rw [htokens] at htake haddressed
  have hle := hapart htake
  omega

theorem exists_reviewed {value : Option Converted} {text : Text}
    (h : value.map (fun converted =>
      converted.reviewed.toOption.map (·.map Session.Candidate.text)) = some (some (some text))) :
    ∃ converted candidate, value = some converted ∧ converted.reviewed = .ok (some candidate) ∧
      candidate.text = text := by
  obtain ⟨converted, hconverted, hoption⟩ := Option.map_eq_some_iff.mp h
  obtain ⟨found, hfound, hsome⟩ := Option.map_eq_some_iff.mp hoption
  obtain ⟨candidate, rfl, htext⟩ := Option.map_eq_some_iff.mp hsome
  refine ⟨converted, candidate, hconverted, ?_, htext⟩
  cases hresult : converted.reviewed with
  | error error => simp [hresult, Except.toOption] at hfound
  | ok reviewed => exact congrArg Except.ok (by simpa [hresult, Except.toOption] using hfound)

/-- The second conversion reports the candidate, and neither accepted its last token. -/
theorem cut_off_reported :
    (∃ converted candidate, afterCutOff.value = some converted ∧
      converted.reviewed = .ok (some candidate) ∧ candidate.text = ['歯', '市']) ∧
    tokenizeForModel characterModel ['歯', '市'] false = .ok [3, 4] ∧
    ∀ prompt, ¬AcceptedIn .kana exactArithmetic characterModel [] cutOff.log prompt [3, 4] ∧
      ¬AcceptedIn .kana exactArithmetic characterModel cutOff.state.previousEvaluationPrompt
        afterCutOff.log prompt [3, 4] := by
  rw [afterCutOff_eq, cutOff_eq]
  have hreviewed : (pairRun (((pairRun {} (.new 256 128)).value.map Converted.cache).getD {})
      (pairRun {} (.new 256 128)).state).value.map (fun converted =>
        converted.reviewed.toOption.map (·.map Session.Candidate.text)) =
          some (some (some ['歯', '市'])) := by
    decide +kernel
  refine ⟨?_, by decide +kernel, fun prompt => ⟨?_, ?_⟩⟩
  · exact exists_reviewed hreviewed
  · exact @not_acceptedIn _ _ ['葉', '市'] _ _ [1, 4] 0
      (by decide +kernel) (by decide +kernel) (by decide)
  · exact @not_acceptedIn _ _ ['歯', '市'] _ _ [3, 4] 2
      (by decide +kernel) (by decide +kernel) (by decide)

end BeanKey.Zenz
