import BeanKey.Engine.Selection

/-! What an answer shows is what the session holds once the answer is given. -/
namespace BeanKey.Engine
open Session Input Protocol SessionState
variable {config : EngineConfig} {services : Services} {session : SessionState}

/-- An answer lists what the session holds. In an open window these are all candidates in order,
with the selected one among them; elsewhere nothing is selected. -/
structure Shows (session : SessionState) (response : StateResponse) : Prop where
  listed : ∀ shown ∈ response.candidates, ∃ index candidate,
    session.displayCandidates[index]? = some candidate ∧ shown.text = candidate.text ∧
      shown.index = min index u32Max
  selected : response.candidateWindow = .selecting → response.candidates ≠ [] →
    0 ≤ response.selectedCandidate ∧ response.selectedCandidate < response.candidates.length
  unselected : response.candidateWindow ≠ .selecting → response.candidates ≠ [] →
    response.selectedCandidate = -1

theorem Shows.of_empty {response : StateResponse} (h : response.candidates = []) :
    Shows session response where
  listed := by simp [h]
  selected := fun _ hne => absurd h hne
  unselected := fun _ hne => absurd h hne

theorem Shows.congr {after : SessionState} {response : StateResponse} (h : Shows session response)
    (hsame : after.displayCandidates = session.displayCandidates) : Shows after response :=
  ⟨by rw [hsame]; exact h.listed, h.selected, h.unselected⟩

theorem makeState_length (session : SessionState) (consumed : Bool) (commit : Text) (reset : Bool)
    (h : (makeState session consumed commit reset).candidateWindow = .selecting) :
    (makeState session consumed commit reset).candidates.length =
      session.displayCandidates.length := by
  have hindices : candidateIndices session = List.range session.displayCandidates.length := by
    unfold candidateIndices
    rw [show candidateWindowOf session = .selecting from h]
  have hall : ∀ index ∈ List.range session.displayCandidates.length,
      ((session.displayCandidates[index]?).map fun candidate =>
        candidateToProtocol index candidate
          ((session.candidateAnnotations[index]?).getD [])).isSome := by
    intro index hindex
    simp [List.mem_range.mp hindex]
  calc (makeState session consumed commit reset).candidates.length
      = ((List.range session.displayCandidates.length).filterMap fun index =>
          (session.displayCandidates[index]?).map fun candidate =>
            candidateToProtocol index candidate
              ((session.candidateAnnotations[index]?).getD [])).length := by
        rw [← hindices]; rfl
    _ = session.displayCandidates.length := by
        rw [List.length_filterMap_eq_countP, List.countP_eq_length.mpr hall, List.length_range]

theorem makeState_selecting (session : SessionState) (consumed : Bool) (commit : Text)
    (reset : Bool) :
    (makeState session consumed commit reset).candidateWindow = .selecting ↔
      session.inputMode = .selecting := by
  show candidateWindowOf session = .selecting ↔ _
  unfold candidateWindowOf
  cases hmode : session.inputMode with
  | composing => dsimp only; split <;> simp
  | _ => simp

theorem makeState_shows (h : session.InStep config) (consumed : Bool) (commit : Text)
    (reset : Bool) : Shows session (makeState session consumed commit reset) where
  listed _ := makeState_candidates
  selected hwindow hne := by
    have hmode := (makeState_selecting ..).mp hwindow
    have hlength := makeState_length session consumed commit reset hwindow
    have hpos := List.length_pos_iff.mpr hne
    have hselected := h.selected hmode (hlength ▸ hpos)
    have heq : (makeState session consumed commit reset).selectedCandidate =
        (session.selectedCandidate : Int) := if_pos hmode
    omega
  unselected hwindow _ := by
    have hmode : session.inputMode ≠ .selecting := by
      rwa [ne_eq, makeState_selecting] at hwindow
    exact if_neg hmode

/-- The result answers with the state of the session it leaves. -/
def Responds (result : KeyResult) : Prop :=
  ∀ response after, result = .ok (response, after) →
    ∃ consumed commit reset, response = makeState after consumed commit reset

namespace Responds

theorem error (failure : Failure) : Responds (.error failure) := by
  intro response after h
  cases h

theorem respond (session : SessionState) (consumed : Bool) (commit : Text) (reset : Bool) :
    Responds (respond session consumed commit reset) := by
  intro response after h
  cases h
  exact ⟨consumed, commit, reset, rfl⟩

/-- A handler that asks for candidates fails with the request or goes on with its session. -/
theorem requested {answers : Answers} {target : SessionState} {rich : Bool}
    {leftContext : Option Text} {next : SessionState → KeyResult}
    (hnext : ∀ after, Responds (next after)) :
    Responds
      (match requestCandidatesWithContext config answers target rich leftContext with
      | .error failure => .error failure
      | .ok after => next after) := by
  split
  · exact .error _
  · exact hnext _

end Responds

variable (config services session)

theorem commitCandidate_responds (candidate : Session.Candidate) (mode : InputMode) :
    Responds (commitCandidate config services session candidate mode) := by
  unfold commitCandidate
  split
  · exact .error _
  · dsimp only
    split
    · exact .respond _ _ _ _
    · exact .requested fun after => .respond _ _ _ _

theorem selectCandidateWithRemainderMode_responds (index : Nat) (mode : InputMode) :
    Responds (selectCandidateWithRemainderMode config services session index mode) := by
  unfold selectCandidateWithRemainderMode
  split
  · exact .error _
  · exact commitCandidate_responds config services _ _ _

theorem selectCandidate_responds (index : Nat) :
    Responds (selectCandidate config services session index) :=
  selectCandidateWithRemainderMode_responds config services session index .previewing

theorem forgetCandidate_responds (index : Nat) :
    Responds (forgetCandidate config services session index) := by
  unfold forgetCandidate
  split
  · exact .error _
  · split
    · exact .error _
    · exact .requested fun after => .respond _ _ _ _

theorem resetLearning_responds : Responds (resetLearning config services session) := by
  unfold resetLearning
  split
  · exact .error _
  · dsimp only
    split
    · exact .respond _ _ _ _
    · exact .requested fun after => .respond _ _ _ _

theorem enterUnicodeInput_responds : Responds (enterUnicodeInput config services session) := by
  unfold enterUnicodeInput
  dsimp only
  split
  · exact .respond _ _ _ _
  · exact .respond _ _ _ _
  · split
    · exact .error _
    · exact .respond _ _ _ _
  · split
    · exact .error _
    · exact .respond _ _ _ _
  · split
    · exact .error _
    · split
      · exact .error _
      · exact .respond _ _ _ _

omit config services in
theorem handleUnicodeInput_responds (event : KeyEvent) :
    Responds (handleUnicodeInput session event) := by
  unfold handleUnicodeInput
  split
  · exact .respond _ _ _ _
  · split <;> exact .respond _ _ _ _
  all_goals exact .respond _ _ _ _

theorem composeEvent_responds (event : KeyEvent) (commit : Text) :
    Responds (composeEvent config services session event commit) := by
  unfold composeEvent
  exact .requested fun after => .respond _ _ _ _

theorem handleText_responds (event : KeyEvent) :
    Responds (handleText config services session event) := by
  unfold handleText
  split
  · exact composeEvent_responds config services _ _ _
  · exact .respond _ _ _ _

theorem handleInput_responds (event : KeyEvent) :
    Responds (handleInput config services session event) := by
  unfold handleInput
  split
  · exact .respond _ _ _ _
  · split
    · split
      · exact composeEvent_responds config services _ _ _
      · exact selectCandidate_responds config services _ _
      · exact handleText_responds config services _ _
    · exact handleText_responds config services _ _

theorem handleBackspace_responds : Responds (handleBackspace config services session) := by
  unfold handleBackspace
  split
  · exact .respond _ _ _ _
  · dsimp only
    split
    · exact .respond _ _ _ _
    · refine .requested fun after => ?_
      split
      · exact .error _
      · exact .respond _ _ _ _

omit services in
theorem handleEscape_responds : Responds (handleEscape config session) := by
  unfold handleEscape
  split <;> exact .respond _ _ _ _

theorem handleEnter_responds : Responds (handleEnter config services session) := by
  unfold handleEnter
  split
  · exact .respond _ _ _ _
  · exact selectCandidate_responds config services _ _
  · dsimp only
    split
    · exact .error _
    · exact .respond _ _ _ _

theorem openSelection_responds : Responds (openSelection config services session) := by
  unfold openSelection
  exact .requested fun after => .respond _ _ _ _

theorem handleSpace_responds (event : KeyEvent) :
    Responds (handleSpace config services session event) := by
  unfold handleSpace
  split
  · exact .respond _ _ _ _
  · split
    · exact .respond _ _ _ _
    · split
      · exact openSelection_responds config services _
      · exact .requested fun after => .respond _ _ _ _
  · exact openSelection_responds config services _
  · split
    · exact .respond _ _ _ _
    · split <;> exact .respond _ _ _ _
  · exact .respond _ _ _ _

theorem handleDown_responds : Responds (handleDown config services session) := by
  unfold handleDown
  split
  · exact openSelection_responds config services _
  · exact openSelection_responds config services _
  all_goals exact .respond _ _ _ _

omit services in
theorem handleUp_responds : Responds (handleUp config session) := by
  unfold handleUp
  split
  · split <;> exact .respond _ _ _ _
  · exact .respond _ _ _ _

theorem handleArrow_responds (event : KeyEvent) (right : Bool) :
    Responds (handleArrow config services session event right) := by
  unfold handleArrow moveSegment
  split
  · exact .respond _ _ _ _
  · split
    · exact .requested fun after => .respond _ _ _ _
    · split
      · exact selectCandidateWithRemainderMode_responds config services _ _ _
      · exact .respond _ _ _ _

theorem handleTab_responds : Responds (handleTab config services session) := by
  unfold handleTab
  split
  · exact .respond _ _ _ _
  · split
    · exact .respond _ _ _ _
    · split
      · exact .respond _ _ _ _
      · exact .requested fun after => .respond _ _ _ _

theorem handleRepresentation_responds (index : Fin 5) :
    Responds (handleRepresentation config services session index) := by
  unfold handleRepresentation
  split
  · exact .respond _ _ _ _
  · dsimp only
    split
    · exact .respond _ _ _ _
    · exact commitCandidate_responds config services _ _ _

theorem handleForget_responds : Responds (handleForget config services session) := by
  unfold handleForget
  split
  · exact forgetCandidate_responds config services _ _
  · exact .respond _ _ _ _

theorem handleEisu_responds {response : StateResponse} {after : SessionState}
    (h : handleEisu config services session = .ok (response, after)) :
    ∃ shown consumed commit reset, after.displayCandidates = shown.displayCandidates ∧
      (∀ config, shown.InStep config ↔ after.InStep config) ∧
      response.candidates = (makeState shown consumed commit reset).candidates ∧
      response.candidateWindow = (makeState shown consumed commit reset).candidateWindow ∧
      response.selectedCandidate = (makeState shown consumed commit reset).selectedCandidate := by
  have hframe (shown : SessionState) (config : EngineConfig) : shown.InStep config ↔
      ({ shown with inputLanguage := .english } : SessionState).InStep config :=
    ⟨fun h => ⟨h.1, h.2, h.3, h.4, h.5, h.6⟩, fun h => ⟨h.1, h.2, h.3, h.4, h.5, h.6⟩⟩
  unfold handleEisu at h
  split at h
  · split at h
    · cases h
    · rename_i selected shown hselect
      obtain ⟨consumed, commit, reset, rfl⟩ :=
        selectCandidate_responds config services session _ _ _ hselect
      cases h
      exact ⟨shown, consumed, commit, reset, rfl, hframe shown, rfl, rfl, rfl⟩
  · cases h
    exact ⟨_, true, [], false, rfl, fun _ => Iff.rfl, rfl, rfl, rfl⟩

theorem handleAction_responds (event : KeyEvent) (heisu : event.action ≠ .eisu) :
    Responds (handleAction config services session event) := by
  unfold handleAction
  split
  · exact enterUnicodeInput_responds config services session
  · exact absurd ‹_› heisu
  · exact .respond _ _ _ _
  · exact handleInput_responds config services session event
  · exact handleBackspace_responds config services session
  · exact handleEscape_responds config session
  · exact handleEnter_responds config services session
  · exact handleSpace_responds config services session event
  · exact handleDown_responds config services session
  · exact handleUp_responds config session
  · exact handleArrow_responds config services session event false
  · exact handleArrow_responds config services session event true
  · exact handleTab_responds config services session
  · exact handleRepresentation_responds config services session 0
  · exact handleRepresentation_responds config services session 1
  · exact handleRepresentation_responds config services session 2
  · exact handleRepresentation_responds config services session 3
  · exact handleRepresentation_responds config services session 4
  · exact handleForget_responds config services session
  all_goals exact .respond _ _ _ _

variable {config services session}

theorem Responds.shows {result : KeyResult} (h : Responds result) {response : StateResponse}
    {after : SessionState} (hresult : result = .ok (response, after))
    (hafter : after.InStep config) : Shows after response := by
  obtain ⟨consumed, commit, reset, rfl⟩ := h response after hresult
  exact makeState_shows hafter consumed commit reset

theorem handleKey_shows {event : KeyEvent} {response : StateResponse} {after : SessionState}
    (h : handleKey config services session event = .ok (response, after))
    (hafter : after.InStep config) : Shows after response := by
  unfold handleKey at h
  dsimp only at h
  split at h
  · exact (Responds.respond _ _ _ _).shows h hafter
  · split at h
    · exact (handleUnicodeInput_responds _ _).shows h hafter
    · by_cases heisu : (normalizeInputEvent event config.inputBehavior).action = .eisu
      · have hselects : handleEisu config services { session with typoCorrections := [] } =
            .ok (response, after) := by
          unfold handleAction at h
          simpa only [heisu] using h
        obtain ⟨shown, consumed, commit, reset, hsame, hstep, hlisted, hwindow, hselected⟩ :=
          handleEisu_responds config services _ hselects
        have hshows := makeState_shows ((hstep config).mpr hafter) consumed commit reset
        refine Shows.congr ⟨?_, ?_, ?_⟩ hsame
        · rw [hlisted]
          exact hshows.listed
        · rw [hlisted, hwindow, hselected]
          exact hshows.selected
        · rw [hlisted, hwindow, hselected]
          exact hshows.unselected
      · exact (handleAction_responds config services _ _ heisu).shows h hafter

theorem handleRequest_shows {request : Payload} {response : StateResponse} {after : SessionState}
    (hstep : session.InStep config)
    (h : handleRequest config services session request = .ok (response, after)) :
    Shows after response := by
  have hafter : after.InStep config := (handleRequest_effect hstep h).inStep hstep
  unfold handleRequest at h
  split at h
  · cases h
    exact .of_empty rfl
  · exact handleKey_shows h hafter
  · exact (selectCandidate_responds config services _ _).shows h hafter
  · unfold selectTypoCorrection at h
    split at h
    · cases h
    · cases h
      exact .of_empty rfl
  · exact (forgetCandidate_responds config services _ _).shows h hafter
  · exact (resetLearning_responds config services _).shows h hafter
  · cases h
    exact .of_empty rfl
  · cases h

/-- A message answered with a state leaves a session that holds what the answer shows, or it ends
the session. -/
theorem handleMessage_shows {previous : Option SessionState} {requestId : Nat} {payload : Payload}
    {response : StateResponse} {after : SessionState}
    (hprevious : ∀ before, previous = some before → before.InStep config)
    (h : handleMessage config services previous requestId (some payload) =
      (.stateResponse response, some after)) : Shows after response := by
  unfold handleMessage at h
  split at h
  · cases h
  · split at h
    · cases h
    · cases h
      exact .of_empty rfl
  · rename_i payload hpayload
    split at h
    · cases h
    · split at h
      · cases h
      · rename_i session
        have hnumbered :
            ({ session with lastRequestId := requestId } : SessionState).InStep config :=
          have hstep := hprevious session rfl
          ⟨hstep.1, hstep.2, hstep.3, hstep.4, hstep.5, hstep.6⟩
        unfold handleSessionRequest at h
        split at h
        · cases h
        · dsimp only at h
          split at h
          · split at h <;> cases h
          · split at h <;> cases h
          · split at h
            · cases h
            · rename_i paged hpaged
              cases h
              have heffect : Effect config services none { session with lastRequestId := requestId }
                  { paged with liveCandidate := none } := pageCandidates_effect hnumbered hpaged
              exact makeState_shows (heffect.inStep hnumbered) _ _ _
          · unfold answerRequest at h
            split at h
            · cases h
            · rename_i updated hupdated
              obtain ⟨surrounding, rfl⟩ := updateSurrounding_eq_ok hupdated
              have hupdated : ({ session with lastRequestId := requestId, surrounding } :
                  SessionState).InStep config :=
                ⟨hnumbered.1, hnumbered.2, hnumbered.3, hnumbered.4, hnumbered.5, hnumbered.6⟩
              split at h
              · cases h
              · cases h
                exact handleRequest_shows hupdated ‹_›

end BeanKey.Engine
