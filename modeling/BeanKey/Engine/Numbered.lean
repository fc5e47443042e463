import BeanKey.Engine.Presentation

/-! The number of the last request: a handler leaves it alone, so a session carries the number
of the request that `handle_session_request` recorded. -/
namespace BeanKey.Engine
open Session Input Protocol
variable {config : EngineConfig} {services : Services} {session : SessionState}

def Numbered (session : SessionState) (result : KeyResult) : Prop :=
  ∀ response after, result = .ok (response, after) → after.lastRequestId = session.lastRequestId

namespace Numbered

theorem error (failure : Failure) : Numbered session (.error failure) :=
  fun _ _ h => nomatch h

theorem respond {next : SessionState} {consumed : Bool} {commit : Text} {reset : Bool}
    (h : next.lastRequestId = session.lastRequestId) :
    Numbered session (respond next consumed commit reset) := by
  intro response after hresult
  cases hresult
  exact h

theorem trans {target : SessionState} {result : KeyResult} (h : Numbered target result)
    (hnumber : target.lastRequestId = session.lastRequestId) : Numbered session result :=
  fun response after hresult => (h response after hresult).trans hnumber

end Numbered

theorem prepared_number (session : SessionState) :
    (session.prepared config).lastRequestId = session.lastRequestId := by
  unfold SessionState.prepared
  dsimp only
  split <;> split <;> rfl

theorem finished_number (session : SessionState) :
    (session.finished config).lastRequestId = session.lastRequestId := by
  unfold SessionState.finished
  split <;> rfl

theorem requestCandidatesWithContext_number {answers : Answers} {after : SessionState} {rich : Bool}
    {leftContext : Option Text}
    (h : requestCandidatesWithContext config answers session rich leftContext = .ok after) :
    after.lastRequestId = session.lastRequestId := by
  obtain ⟨result, evaluated, -, rfl⟩ := SessionState.requestCandidates_eq_ok h
  exact (finished_number _).trans (prepared_number session)

theorem Numbered.requested {answers : Answers} {target : SessionState} {rich : Bool}
    {leftContext : Option Text} {next : SessionState → KeyResult}
    (hnumber : target.lastRequestId = session.lastRequestId)
    (hnext : ∀ after, after.lastRequestId = session.lastRequestId → Numbered session (next after)) :
    Numbered session
      (match requestCandidatesWithContext config answers target rich leftContext with
      | .error failure => .error failure
      | .ok after => next after) := by
  split
  · exact .error _
  · rename_i after hrequest
    exact hnext after ((requestCandidatesWithContext_number hrequest).trans hnumber)

theorem selectAndStageLearning_number {candidate : Session.Candidate}
    {selected : Text × SessionState}
    (h : selectAndStageLearning config services session candidate = .ok selected) :
    selected.2.lastRequestId = session.lastRequestId := by
  rw [SessionState.selectAndStageLearning_eq_ok h]

theorem learnCurrentMarkedCandidate_number {after : SessionState} {text : Text}
    (h : learnCurrentMarkedCandidate config services session text = .ok after) :
    after.lastRequestId = session.lastRequestId := by
  unfold learnCurrentMarkedCandidate at h
  split at h
  · cases h
    rfl
  · rename_i candidate _
    cases hselect : selectAndStageLearning config services session candidate with
    | error failure => rw [hselect] at h; cases h
    | ok selected =>
      rw [hselect] at h
      cases h
      exact selectAndStageLearning_number hselect

theorem afterSelection_number (session : SessionState) (mode : InputMode) :
    (session.afterSelection mode).lastRequestId = session.lastRequestId := by
  unfold SessionState.afterSelection
  dsimp only
  split <;> rfl

theorem updateBackspaceCorrection_number {previous : ComposingText} {after : SessionState}
    (h : updateBackspaceCorrection config services session previous = .ok after) :
    after.lastRequestId = session.lastRequestId := by
  obtain ⟨correction, rfl⟩ := updateBackspaceCorrection_eq_ok h
  rfl

theorem suggestCorrection_number (session : SessionState) :
    (suggestCorrection config session).lastRequestId = session.lastRequestId := by
  unfold suggestCorrection
  grind

theorem selectNext_number (session : SessionState) :
    session.selectNext.lastRequestId = session.lastRequestId := by
  unfold SessionState.selectNext
  dsimp only
  split <;> rfl

theorem acceptPrediction_number {prediction : InputPrediction} {accepted : SessionState}
    (h : acceptPrediction config session prediction = some accepted) :
    accepted.lastRequestId = session.lastRequestId := by
  unfold acceptPrediction at h
  dsimp only at h
  split at h
  · obtain ⟨conversion, -, rfl⟩ := Option.map_eq_some_iff.mp h
    rfl
  · split at h <;> (cases h; rfl)

/-! ### The handlers -/

variable (config services session)

theorem commitCandidate_numbered (candidate : Session.Candidate) (mode : InputMode) :
    Numbered session (commitCandidate config services session candidate mode) := by
  unfold commitCandidate
  split
  · exact .error _
  · rename_i commit selected hselect
    have hnumber : (selected.afterSelection mode).lastRequestId = session.lastRequestId :=
      (afterSelection_number selected mode).trans (selectAndStageLearning_number hselect)
    dsimp only
    split
    · exact .respond hnumber
    · exact .requested hnumber fun after => .respond

theorem selectCandidateWithRemainderMode_numbered (index : Nat) (mode : InputMode) :
    Numbered session
      (selectCandidateWithRemainderMode config services session index mode) := by
  unfold selectCandidateWithRemainderMode
  split
  · exact .error _
  · exact (commitCandidate_numbered config services _ _ mode).trans rfl

theorem forgetCandidate_numbered (index : Nat) :
    Numbered session (forgetCandidate config services session index) := by
  unfold forgetCandidate
  split
  · exact .error _
  · split
    · exact .error _
    · exact .requested rfl fun after => .respond

theorem resetLearning_numbered : Numbered session (resetLearning config services session) := by
  unfold resetLearning
  split
  · exact .error _
  · dsimp only
    split
    · exact .respond rfl
    · exact .requested rfl fun after => .respond

theorem selectTypoCorrection_numbered (index : Nat) :
    Numbered session (selectTypoCorrection session index) := by
  unfold selectTypoCorrection
  split
  · exact .error _
  · intro response after h
    cases h
    rfl

theorem enterUnicodeInput_numbered :
    Numbered session (enterUnicodeInput config services session) := by
  unfold enterUnicodeInput
  dsimp only
  split
  · exact .respond rfl
  · exact .respond rfl
  · split
    · exact .error _
    · rename_i hlearn
      have hnumber := learnCurrentMarkedCandidate_number hlearn
      exact .respond hnumber
  · split
    · exact .error _
    · rename_i hlearn
      have hnumber := learnCurrentMarkedCandidate_number hlearn
      exact .respond hnumber
  · split
    · exact .error _
    · split
      · exact .error _
      · rename_i hselect
        have hnumber := selectAndStageLearning_number hselect
        exact .respond hnumber

theorem handleUnicodeInput_numbered (event : KeyEvent) :
    Numbered session (handleUnicodeInput session event) := by
  unfold handleUnicodeInput
  split
  · exact .respond rfl
  · split
    · exact .respond rfl
    · exact .respond rfl
  all_goals exact .respond rfl

theorem composeEvent_numbered (event : KeyEvent) (commit : Text) :
    Numbered session (composeEvent config services session event commit) := by
  unfold composeEvent
  exact .requested rfl fun after => .respond

theorem handleText_numbered (event : KeyEvent) :
    Numbered session (handleText config services session event) := by
  unfold handleText
  dsimp only
  split
  · apply (composeEvent_numbered config services _ event _).trans
    dsimp only
    split <;> rfl
  · exact .respond rfl

theorem handleInput_numbered (event : KeyEvent) :
    Numbered session (handleInput config services session event) := by
  unfold handleInput
  split
  · exact .respond rfl
  · split
    · split
      · exact (composeEvent_numbered config services _ event _).trans rfl
      · exact selectCandidateWithRemainderMode_numbered config services session _ _
      · exact handleText_numbered config services session event
    · exact handleText_numbered config services session event

theorem handleBackspace_numbered :
    Numbered session (handleBackspace config services session) := by
  unfold handleBackspace
  dsimp only
  split
  · exact .respond rfl
  · split
    · exact .respond rfl
    · apply Numbered.requested rfl
      intro after hafter
      split
      · exact .error _
      · rename_i corrected hcorrected
        apply Numbered.respond
        rw [suggestCorrection_number]
        split at hcorrected
        · exact (updateBackspaceCorrection_number hcorrected).trans hafter
        · cases hcorrected
          exact hafter

theorem handleEscape_numbered : Numbered session (handleEscape config session) := by
  unfold handleEscape
  split <;> exact .respond rfl

theorem handleEnter_numbered : Numbered session (handleEnter config services session) := by
  unfold handleEnter
  split
  · exact .respond rfl
  · exact selectCandidateWithRemainderMode_numbered config services session _ _
  · dsimp only
    split
    · exact .error _
    · rename_i hlearn
      have hnumber := learnCurrentMarkedCandidate_number hlearn
      exact .respond hnumber

theorem openSelection_numbered : Numbered session (openSelection config services session) := by
  unfold openSelection
  exact .requested rfl fun after hafter => .respond hafter

theorem handleSpace_numbered (event : KeyEvent) :
    Numbered session (handleSpace config services session event) := by
  unfold handleSpace
  split
  · exact .respond rfl
  · split
    · exact .respond rfl
    · split
      · exact (openSelection_numbered config services _).trans rfl
      · exact .requested rfl fun after hafter => .respond hafter
  · exact openSelection_numbered config services session
  · split
    · exact .respond rfl
    · split
      · exact .respond rfl
      · exact .respond (selectNext_number session)
  · exact .respond rfl

theorem handleDown_numbered : Numbered session (handleDown config services session) := by
  unfold handleDown
  split
  · exact (openSelection_numbered config services _).trans rfl
  · exact (openSelection_numbered config services _).trans rfl
  · exact .respond (selectNext_number session)
  · exact .respond rfl
  · exact .respond rfl

theorem handleUp_numbered : Numbered session (handleUp config session) := by
  unfold handleUp
  split
  · split <;> exact .respond rfl
  · exact .respond rfl

theorem handleArrow_numbered (event : KeyEvent) (right : Bool) :
    Numbered session (handleArrow config services session event right) := by
  unfold handleArrow
  split
  · exact .respond rfl
  · split
    · exact .requested rfl fun after hafter => .respond hafter
    · split
      · exact selectCandidateWithRemainderMode_numbered config services session _ _
      · exact .respond rfl

theorem handleTab_numbered : Numbered session (handleTab config services session) := by
  unfold handleTab
  split
  · exact .respond rfl
  · split
    · exact .respond rfl
    · split
      · exact .respond rfl
      · rename_i haccept
        exact .requested (acceptPrediction_number haccept) fun after => .respond

theorem handleRepresentation_numbered (index : Fin 5) :
    Numbered session (handleRepresentation config services session index) := by
  unfold handleRepresentation
  split
  · exact .respond rfl
  · dsimp only
    split
    · exact .respond rfl
    · exact commitCandidate_numbered config services session _ _

theorem handleEisu_numbered : Numbered session (handleEisu config services session) := by
  unfold handleEisu
  split
  · split
    · exact .error _
    · rename_i hselect
      intro response after h
      cases h
      have hnumber :=
        selectCandidateWithRemainderMode_numbered config services session _ _ _ _ hselect
      exact hnumber
  · exact .respond rfl

theorem handleForget_numbered : Numbered session (handleForget config services session) := by
  unfold handleForget
  split
  · exact forgetCandidate_numbered config services session _
  · exact .respond rfl

theorem handleAction_numbered (event : KeyEvent) :
    Numbered session (handleAction config services session event) := by
  unfold handleAction
  split
  · exact enterUnicodeInput_numbered config services session
  · exact handleEisu_numbered config services session
  · exact .respond rfl
  · exact handleInput_numbered config services session event
  · exact handleBackspace_numbered config services session
  · exact handleEscape_numbered config session
  · exact handleEnter_numbered config services session
  · exact handleSpace_numbered config services session event
  · exact handleDown_numbered config services session
  · exact handleUp_numbered config session
  · exact handleArrow_numbered config services session event false
  · exact handleArrow_numbered config services session event true
  · exact handleTab_numbered config services session
  · exact handleRepresentation_numbered config services session 0
  · exact handleRepresentation_numbered config services session 1
  · exact handleRepresentation_numbered config services session 2
  · exact handleRepresentation_numbered config services session 3
  · exact handleRepresentation_numbered config services session 4
  · exact handleForget_numbered config services session
  all_goals exact .respond rfl

theorem handleKey_numbered (event : KeyEvent) :
    Numbered session (handleKey config services session event) := by
  unfold handleKey
  dsimp only
  split
  · exact .respond rfl
  · split
    · exact (handleUnicodeInput_numbered _ _).trans rfl
    · exact (handleAction_numbered config services _ _).trans rfl

theorem handleRequest_numbered (request : Payload) :
    Numbered session (handleRequest config services session request) := by
  unfold handleRequest
  split
  · intro response after h
    cases h
    rfl
  · exact handleKey_numbered config services session _
  · exact selectCandidateWithRemainderMode_numbered config services session _ _
  · exact selectTypoCorrection_numbered session _
  · exact forgetCandidate_numbered config services session _
  · exact resetLearning_numbered config services session
  · intro response after h
    cases h
    rfl
  · exact .error _

end BeanKey.Engine
