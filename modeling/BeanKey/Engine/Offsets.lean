import BeanKey.Engine.Shown

/-! The offsets of an answer lie inside its preedit. -/
namespace BeanKey.Engine
open Session Input Protocol SessionState
variable {config : EngineConfig} {services : Services} {session : SessionState}

/-- The cursor and the end of the highlighted part lie inside the preedit. -/
structure Inside (response : StateResponse) : Prop where
  cursor : response.preeditCursor ≤ response.preedit.length
  highlighted : response.highlightedPreeditLength ≤ response.preedit.length

theorem Inside.of_empty {response : StateResponse} (hcursor : response.preeditCursor = 0)
    (hhighlighted : response.highlightedPreeditLength = 0) : Inside response :=
  ⟨by simp [hcursor], by simp [hhighlighted]⟩

theorem preeditOf_highlighted (session : SessionState) :
    (preeditOf session).2 ≤ (preeditOf session).1.length := by
  unfold preeditOf
  cases session.inputMode with
  | selecting =>
    dsimp only
    cases session.displayCandidates[session.selectedCandidate]? with
    | none => exact Nat.zero_le _
    | some candidate =>
      dsimp only
      rw [List.length_append]
      omega
  | previewing =>
    dsimp only
    cases session.previewCandidateIndex.bind (session.displayCandidates[·]?) <;> exact Nat.zero_le _
  | _ => exact Nat.zero_le _

theorem makeState_inside (session : SessionState) (consumed : Bool) (commit : Text) (reset : Bool) :
    Inside (makeState session consumed commit reset) where
  cursor := min_le_left _ _
  highlighted := preeditOf_highlighted session

theorem Responds.inside {result : KeyResult} (h : Responds result) {response : StateResponse}
    {after : SessionState} (hresult : result = .ok (response, after)) : Inside response := by
  obtain ⟨consumed, commit, reset, rfl⟩ := h response after hresult
  exact makeState_inside after consumed commit reset

theorem handleEisu_inside {response : StateResponse} {after : SessionState}
    (h : handleEisu config services session = .ok (response, after)) : Inside response := by
  unfold handleEisu at h
  split at h
  · split at h
    · cases h
    · rename_i selected shown hselect
      have hinside := (selectCandidate_responds config services session _).inside hselect
      cases h
      exact ⟨hinside.cursor, hinside.highlighted⟩
  · exact (Responds.respond _ _ _ _).inside h

theorem handleKey_inside {event : KeyEvent} {response : StateResponse} {after : SessionState}
    (h : handleKey config services session event = .ok (response, after)) : Inside response := by
  unfold handleKey at h
  dsimp only at h
  split at h
  · exact (Responds.respond _ _ _ _).inside h
  · split at h
    · exact (handleUnicodeInput_responds _ _).inside h
    · by_cases heisu : (normalizeInputEvent event config.inputBehavior).action = .eisu
      · unfold handleAction at h
        simp only [heisu] at h
        exact handleEisu_inside h
      · exact (handleAction_responds config services _ _ heisu).inside h

theorem handleRequest_inside {request : Payload} {response : StateResponse} {after : SessionState}
    (h : handleRequest config services session request = .ok (response, after)) :
    Inside response := by
  unfold handleRequest at h
  split at h
  · cases h
    exact .of_empty rfl rfl
  · exact handleKey_inside h
  · exact (selectCandidate_responds config services _ _).inside h
  · unfold selectTypoCorrection at h
    split at h
    · cases h
    · cases h
      exact .of_empty rfl rfl
  · exact (forgetCandidate_responds config services _ _).inside h
  · exact (resetLearning_responds config services _).inside h
  · cases h
    exact .of_empty rfl rfl
  · cases h

theorem answerRequest_inside {request : Payload} {response : StateResponse}
    (h : (answerRequest config services session request).1 = .stateResponse response) :
    Inside response := by
  unfold answerRequest at h
  split at h
  · cases h
  · split at h
    · cases h
    · cases h
      exact handleRequest_inside ‹_›

theorem handleMessage_inside {previous : Option SessionState} {requestId : Nat} {payload : Payload}
    {response : StateResponse}
    (h : (handleMessage config services previous requestId (some payload)).1 =
      .stateResponse response) : Inside response := by
  unfold handleMessage at h
  split at h
  · cases h
  · split at h
    · cases h
    · cases h
      exact .of_empty rfl rfl
  · split at h
    · cases h
    · split at h
      · cases h
      · unfold handleSessionRequest at h
        split at h
        · cases h
        · dsimp only at h
          split at h
          · split at h
            · cases h
            · cases h
              exact .of_empty rfl rfl
          · split at h <;> cases h
          · split at h
            · cases h
            · cases h
              exact makeState_inside _ _ _ _
          · exact answerRequest_inside h

end BeanKey.Engine
