import BeanKey.Engine.Presentation

/-! Selecting a shown candidate: what is committed and what stays, when the dictionary, the
learning memory and the models answer. -/
namespace BeanKey.Engine
open Session Input Protocol SessionState
variable {config : EngineConfig} {services : Services}

/-- No call fails; a model may still have no room for the context. -/
structure Answers.Succeed (answers : Answers) : Prop where
  validateLearning : answers.validateLearning = .ok ()
  request : ∀ request, ∃ result, answers.request request = .ok result
  zenz : ∀ zenz, answers.zenz = some zenz → ∀ request message,
    zenz request ≠ .error (.other message)

structure Services.Succeed (services : Services) : Prop where
  candidates : services.candidates.Succeed
  display : services.display.Succeed
  previousDisplay : services.previousDisplay.Succeed
  typoCorrections : ∀ session composing message,
    services.typoCorrections session composing ≠ .error (.other message)
  learn : ∀ candidate, services.learn candidate = .ok ()
  forgetLearning : ∀ candidate, services.forgetLearning candidate = .ok ()
  resetLearning : services.resetLearning = .ok ()

theorem Answers.Succeed.convert {answers : Answers} (h : answers.Succeed)
    (request : ConversionRequest) : ∃ answer, answers.convert request = .ok answer := by
  obtain ⟨result, hresult⟩ := h.request request
  unfold Answers.convert
  cases hzenz : answers.zenz with
  | none => exact ⟨(result, none), by simp [hresult]⟩
  | some zenz =>
    cases hanswer : zenz request with
    | ok answer => exact ⟨answer, by simp [hanswer]⟩
    | error failure =>
      cases failure with
      | contextCapacityExceeded => exact ⟨(result, none), by simp [hanswer, hresult]⟩
      | other message => exact absurd hanswer (h.zenz zenz hzenz request message)

variable (config) in
theorem Answers.Succeed.requestCandidates {answers : Answers} (h : answers.Succeed)
    (session : SessionState) (rich : Bool) (leftContext : Option Text) :
    ∃ after, requestCandidatesWithContext config answers session rich leftContext = .ok after := by
  obtain ⟨answer, hanswer⟩ := h.convert ⟨session.prepared config, rich, leftContext⟩
  refine ⟨((session.prepared config).present config answer.1 answer.2).finished config, ?_⟩
  unfold requestCandidatesWithContext requestCandidatesForActiveTarget
  rw [h.validateLearning]
  simp only [hanswer]
  rfl

variable (config) in
theorem Services.Succeed.selectAndStageLearning (h : services.Succeed) (session : SessionState)
    (candidate : Session.Candidate) :
    ∃ selected, selectAndStageLearning config services session candidate = .ok selected := by
  unfold Engine.selectAndStageLearning
  dsimp only
  split
  · rw [h.learn candidate]
    exact ⟨_, rfl⟩
  · exact ⟨_, rfl⟩

variable (config) in
theorem Services.Succeed.commitCandidate (h : services.Succeed) (session : SessionState)
    (candidate : Session.Candidate) (mode : InputMode) :
    ∃ result, commitCandidate config services session candidate mode = .ok result := by
  obtain ⟨selected, hselected⟩ := h.selectAndStageLearning config session candidate
  unfold Engine.commitCandidate
  rw [hselected]
  dsimp only
  split
  · exact ⟨_, rfl⟩
  · obtain ⟨after, hafter⟩ := h.candidates.requestCandidates config
      (selected.2.afterSelection mode) true
        (some (selected.2.surrounding.left.getD [] ++ selected.1))
    rw [hafter]
    exact ⟨_, rfl⟩

variable (config) in
theorem Services.Succeed.selectCandidateWithRemainderMode (h : services.Succeed)
    (session : SessionState) {index : Nat} (hindex : index < session.displayCandidates.length)
    (mode : InputMode) :
    ∃ result, selectCandidateWithRemainderMode config services session index mode = .ok result := by
  unfold Engine.selectCandidateWithRemainderMode
  rw [List.getElem?_eq_getElem hindex]
  exact h.commitCandidate config _ _ mode

theorem commitCandidate_commits {session : SessionState} {candidate : Session.Candidate}
    {mode : InputMode} {result : StateResponse × SessionState}
    (h : commitCandidate config services session candidate mode = .ok result)
    (hfull : session.conversion.fullComposing = none) :
    result.1.commit = candidate.text ∧
      result.2.composing.surfaceText = session.remaining config candidate := by
  unfold commitCandidate at h
  cases hselect : selectAndStageLearning config services session candidate with
  | error failure => rw [hselect] at h; cases h
  | ok selected =>
    rw [hselect, selectAndStageLearning_eq_ok hselect] at h
    dsimp only at h
    have hleft := selectCandidateValue_surfaceText session.conversion config.tables candidate
    have hafter (chosen : SessionState) :
        (chosen.afterSelection mode).conversion = chosen.conversion := by
      unfold afterSelection
      dsimp only
      split <;> rfl
    split at h
    · cases h
      exact ⟨rfl, (congrArg (fun conversion => conversion.composing.surfaceText)
        (hafter _)).trans hleft⟩
    · split at h
      · cases h
      · rename_i after hrequest
        cases h
        have hnone : (SessionState.afterSelection { session with
            conversion := session.conversion.selectCandidateValue config.tables candidate }
              mode).conversion.fullComposing = none := by
          rw [hafter, selectCandidateValue_fullComposing]
          exact hfull
        have hanswered := requestCandidates_answered hrequest hnone
        have hkept : after.composing.surfaceText = _ :=
          congrArg ComposingText.surfaceText hanswered.composing
        exact ⟨rfl, hkept.trans ((congrArg (fun conversion => conversion.composing.surfaceText)
          (hafter _)).trans hleft)⟩

theorem selectCandidateWithRemainderMode_commits {session : SessionState} {index : Nat}
    {candidate : Session.Candidate} {mode : InputMode} {result : StateResponse × SessionState}
    (h : selectCandidateWithRemainderMode config services session index mode = .ok result)
    (hfull : session.conversion.fullComposing = none)
    (hcandidate : session.displayCandidates[index]? = some candidate) :
    result.1.commit = candidate.text ∧
      result.2.composing.surfaceText = session.remaining config candidate := by
  unfold selectCandidateWithRemainderMode at h
  rw [hcandidate] at h
  have hcommits := commitCandidate_commits h hfull
  exact hcommits

theorem makeState_candidates {session : SessionState} {consumed reset : Bool} {commit : Text}
    {shown : Protocol.Candidate}
    (h : shown ∈ (makeState session consumed commit reset).candidates) :
    ∃ index candidate, session.displayCandidates[index]? = some candidate ∧
      shown.text = candidate.text ∧ shown.index = min index u32Max := by
  obtain ⟨index, -, hshown⟩ := List.mem_filterMap.mp h
  obtain ⟨candidate, hcandidate, hprotocol⟩ := Option.map_eq_some_iff.mp hshown
  subst hprotocol
  exact ⟨index, candidate, hcandidate, rfl, rfl⟩

/-- In every reachable session the three lists and the index are in step, and selecting a
shown candidate commits its text and leaves the remainder shown beside it. -/
theorem presentation_in_step (config : EngineConfig) (sessions : Sessions)
    (h : Reachable config sessions) (sessionId : String) (session : SessionState)
    (hsession : sessions sessionId = some session) :
    session.candidateAnnotations.length = session.displayCandidates.length ∧
      session.candidateRemainders = session.displayCandidates.map
        (session.conversion.remainingAfterCandidate config.tables) ∧
      (session.inputMode = .selecting → session.displayCandidates ≠ [] →
        session.selectedCandidate < session.displayCandidates.length) ∧
      ∀ (services : Services) (requestId index : Nat) (candidate : Session.Candidate),
        session.lastRequestId < requestId →
        session.displayCandidates[index]? = some candidate →
        let after := handle config services sessions
          ⟨requestId, sessionId, some (.selectCandidate index)⟩
        (services.Succeed → ∃ response, after.1.payload = some (.stateResponse response)) ∧
        ∀ response, after.1.payload = some (.stateResponse response) →
          response.commit = candidate.text ∧
          ∃ left, after.2 sessionId = some left ∧
            session.candidateRemainders[index]? = some left.composing.surfaceText := by
  have hstep := h.inStep sessionId session hsession
  refine ⟨hstep.annotations, hstep.remainders, fun hmode hne =>
    hstep.selected hmode (List.length_pos_iff.mpr hne), ?_⟩
  intro services requestId index candidate hnumber hcandidate
  have hselect : handleMessage config services (sessions sessionId) requestId
      (some (.selectCandidate index)) = answerRequest config services
        { session with lastRequestId := requestId } (.selectCandidate index) := by
    rw [hsession]
    exact if_neg (Nat.not_le.mpr hnumber)
  have hafter : handle config services sessions
      ⟨requestId, sessionId, some (.selectCandidate index)⟩ =
      (⟨requestId, sessionId, some (answerRequest config services
        { session with lastRequestId := requestId } (.selectCandidate index)).1⟩,
        Function.update sessions sessionId (answerRequest config services
          { session with lastRequestId := requestId } (.selectCandidate index)).2) := by
    unfold handle
    rw [hselect]
  rw [hafter]
  have hkept : updateSurrounding { session with lastRequestId := requestId }
      (.selectCandidate index) = .ok { session with lastRequestId := requestId } := rfl
  have hrequest : handleRequest config services { session with lastRequestId := requestId }
      (.selectCandidate index) = selectCandidate config services
        { session with lastRequestId := requestId } index := rfl
  simp only [answerRequest, hkept, hrequest]
  refine ⟨fun hservices => ?_, fun response hresponse => ?_⟩
  · have hlt : index < session.displayCandidates.length := by
      by_contra hge
      rw [List.getElem?_eq_none (Nat.not_lt.mp hge)] at hcandidate
      cases hcandidate
    obtain ⟨result, hresult⟩ := hservices.selectCandidateWithRemainderMode config
      { session with lastRequestId := requestId } hlt .previewing
    refine ⟨result.1, ?_⟩
    rw [selectCandidate, hresult]
  · cases hresult : selectCandidate config services
        { session with lastRequestId := requestId } index with
    | error failure => rw [hresult] at hresponse; cases hresponse
    | ok result =>
      rw [hresult] at hresponse
      cases hresponse
      have hcommits := selectCandidateWithRemainderMode_commits hresult
        hstep.fullComposing hcandidate
      refine ⟨hcommits.1, result.2, ?_, ?_⟩
      · exact Function.update_self ..
      · rw [hcommits.2]
        exact remainders_getElem? hstep.remainders hcandidate

/-! ### Typing `かな` over an empty dictionary -/

def plainConfig : EngineConfig where
  unicode := .kana
  tables :=
    { romanToKana := .empty
      azik := .empty
      kanaJis := .empty
      kanaUs := .empty
      custom := fun _ => none }
  defaultInputStyle := .direct

def kanaCandidate (text ruby : Text) : Session.Candidate where
  text
  value := -14
  composingCount := .surface ruby.length
  lastMeaningId := 501
  entries := ruby.map fun character => ⟨[character], [character], 1288, 1288, 501, -14, 0, {}⟩
  isLearningTarget := false

/-- Without a dictionary a reading is converted to its kana, and so is its first clause. -/
def kanaAnswers : Answers where
  validateLearning := .ok ()
  zenz := none
  request := fun request =>
    let surface := request.session.composing.surfaceText
    let ruby := toKatakana surface
    .ok
      { mainResults := [kanaCandidate surface ruby, kanaCandidate ruby ruby]
        firstClauseResults :=
          if ruby.length ≤ 1 then []
          else [kanaCandidate (surface.take 1) (ruby.take 1),
            kanaCandidate (ruby.take 1) (ruby.take 1)] }

def kanaServices : Services where
  candidates := kanaAnswers
  display := kanaAnswers
  previousDisplay := kanaAnswers
  typoCorrections := fun _ _ => .ok []
  learn := fun _ => .ok ()
  commitLearning := .ok ()
  forgetLearning := fun _ => .ok ()
  resetLearning := .ok ()
  openUserDictionary := .ok ()
  openLearning := .ok ()

theorem kanaServices_succeed : kanaServices.Succeed := by
  have hanswers : kanaAnswers.Succeed :=
    ⟨rfl, fun _ => ⟨_, rfl⟩, fun _ hzenz => nomatch hzenz⟩
  exact
    { candidates := hanswers
      display := hanswers
      previousDisplay := hanswers
      typoCorrections := fun _ _ _ h => nomatch h
      learn := fun _ => rfl
      forgetLearning := fun _ => rfl
      resetLearning := rfl }

def pressed (action : UserAction) (text : Text) : Payload := .keyEvent { action, text }

def kanaSessions (keys : List Payload) : Sessions :=
  runMessages plainConfig kanaServices "session" 1
    (.startSession ⟨.unspecified, none, .unspecified, []⟩ :: pressed .input ['か'] ::
      pressed .input ['な'] :: keys) .fresh

theorem kanaSessions_reachable (keys : List Payload) : Reachable plainConfig (kanaSessions keys) :=
  runMessages_reachable _ 1 .fresh

theorem kanaSessions_some {keys : List Payload}
    (h : (kanaSessions keys "session").isSome = true) :
    ∃ session, kanaSessions keys "session" = some session := Option.isSome_iff_exists.mp h

/-- `か`, before `な`, is committed when it is selected. -/
theorem presentation_in_step_kana :
    ∃ session candidate response,
      kanaSessions [pressed .space [], pressed .space []] "session" = some session ∧
      session.displayCandidates[0]? = some candidate ∧
      (handle plainConfig kanaServices (kanaSessions [pressed .space [], pressed .space []])
        ⟨6, "session", some (.selectCandidate 0)⟩).1.payload = some (.stateResponse response) ∧
      response.commit = candidate.text := by
  obtain ⟨session, hsession⟩ :=
    kanaSessions_some (show (kanaSessions [pressed .space [], pressed .space []] _).isSome = true
      by decide +kernel)
  have hshape : (kanaSessions [pressed .space [], pressed .space []] "session").map
      (fun session => (session.lastRequestId, session.displayCandidates.length)) = some (5, 4) := by
    decide +kernel
  rw [hsession] at hshape
  obtain ⟨hnumber, hlen⟩ := Prod.mk.inj (Option.some.inj hshape)
  have hcandidate := List.getElem?_eq_getElem (show 0 < session.displayCandidates.length by omega)
  have hselected := (presentation_in_step plainConfig _ (kanaSessions_reachable _) "session" session
    hsession).2.2.2 kanaServices 6 0 _ (by omega) hcandidate
  obtain ⟨response, hresponse⟩ := hselected.1 kanaServices_succeed
  exact ⟨session, _, response, hsession, hcandidate, hresponse, (hselected.2 response hresponse).1⟩

end BeanKey.Engine
