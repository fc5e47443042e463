import BeanKey.Engine.Isolation
import BeanKey.Engine.Shown

/-! Messages a client may send: a session is started under a free name, and what is asked of it fits
what it holds. -/
namespace BeanKey.Engine
open Session Input Protocol SessionState

def Fits (session : SessionState) : Payload → Prop
  | .selectCandidate index | .forgetCandidate index => index < session.displayCandidates.length
  | .selectTypoCorrection index => index < session.typoCorrections.length
  | .startSession _ | .stateResponse _ | .typoCorrectionResponse _ | .protocolError _ _ => False
  | _ => True

/-- A message starts a session that is not there, or asks one that is there under a new number. -/
def Welcome (sessions : Sessions) (envelope : Envelope) : Prop :=
  match envelope.payload with
  | none => False
  | some (.startSession _) => sessions envelope.sessionId = none
  | some payload => ∃ session, sessions envelope.sessionId = some session ∧
      session.lastRequestId < envelope.requestId ∧ Fits session payload

/-- A message the daemon was handed, with the sessions it met and the answer it got, which may
not come back. -/
structure Handled where
  sessions : Sessions
  envelope : Envelope
  response : Envelope
  delivered : Bool

theorem Fits.request {session : SessionState} {payload : Payload} (h : Fits session payload) :
    (∀ start, payload ≠ .startSession start) ∧ isResponse payload = false := by
  cases payload with
  | startSession | stateResponse | typoCorrectionResponse | protocolError => cases h
  | _ => simp [isResponse]

theorem Fits.welcome {sessions : Sessions} {session : SessionState} {requestId : Nat}
    {sessionId : String} {payload : Payload} (h : Fits session payload)
    (hsession : sessions sessionId = some session) (hnumber : session.lastRequestId < requestId) :
    Welcome sessions ⟨requestId, sessionId, some payload⟩ := by
  cases payload with
  | startSession | stateResponse | typoCorrectionResponse | protocolError => cases h
  | _ => exact ⟨session, hsession, hnumber, h⟩

variable {config : EngineConfig} {services : Services} {session : SessionState} {requestId : Nat}

theorem handle_fst (sessions : Sessions) (envelope : Envelope) :
    (handle config services sessions envelope).1 =
      { envelope with
        payload := some (handleMessage config services (sessions envelope.sessionId)
          envelope.requestId envelope.payload).1 } := rfl

theorem handle_snd (sessions : Sessions) (envelope : Envelope) :
    (handle config services sessions envelope).2 =
      Function.update sessions envelope.sessionId
        (handleMessage config services (sessions envelope.sessionId)
          envelope.requestId envelope.payload).2 := rfl

/-- The requests that are answered with a state leave a session, but for the one that ends it. -/
theorem handleSessionRequest_left {payload : Payload} {response : StateResponse}
    (hend : payload ≠ .endSession)
    (h : (handleSessionRequest config services session requestId payload).1 =
      .stateResponse response) :
    ∃ after, (handleSessionRequest config services session requestId payload).2 = some after := by
  unfold handleSessionRequest at *
  split at h
  · cases h
  · rename_i hnumber
    rw [if_neg hnumber]
    cases payload with
    | endSession => exact absurd rfl hend
    | requestTypoCorrections =>
      dsimp only at h ⊢
      split at h <;> cases h
    | pageCandidates page =>
      dsimp only at h ⊢
      split at h
      · cases h
      · exact ⟨_, rfl⟩
    | _ =>
      dsimp only at h ⊢
      unfold answerRequest at *
      split at h
      · cases h
      · split at h
        · cases h
        · exact ⟨_, rfl⟩

theorem handleMessage_state {payload : Payload} {response : StateResponse}
    (hstep : session.InStep config) (hnumber : session.lastRequestId < requestId)
    (hfits : Fits session payload) (hend : payload ≠ .endSession)
    (h : (handleMessage config services (some session) requestId (some payload)).1 =
      .stateResponse response) :
    ∃ after, (handleMessage config services (some session) requestId (some payload)).2 =
      some after ∧
      after.lastRequestId = requestId ∧ Shows after response := by
  obtain ⟨hstart, hrequest⟩ := hfits.request
  have hmessage : handleMessage config services (some session) requestId (some payload) =
      handleSessionRequest config services session requestId payload :=
    handleMessage_request hstart hrequest
  have hleft : ∃ after,
      (handleMessage config services (some session) requestId (some payload)).2 = some after := by
    rw [hmessage] at h ⊢
    exact handleSessionRequest_left hend h
  obtain ⟨after, hafter⟩ := hleft
  refine ⟨after, hafter, ?_, ?_⟩
  · rw [hmessage] at hafter
    exact handleSessionRequest_number hnumber hafter
  · have hprevious : ∀ before, some session = some before → before.InStep config := by
      simpa using hstep
    exact handleMessage_shows hprevious (Prod.ext h hafter)

theorem handleMessage_typos {candidates : List TypoCorrectionCandidate}
    (hnumber : session.lastRequestId < requestId)
    (h : (handleMessage config services (some session) requestId
      (some .requestTypoCorrections)).1 = .typoCorrectionResponse candidates) :
    (handleMessage config services (some session) requestId (some .requestTypoCorrections)).2 =
      some { session with lastRequestId := requestId, typoCorrections := candidates } := by
  rw [handleMessage_request (fun _ => Payload.noConfusion) rfl] at h ⊢
  unfold handleSessionRequest at *
  simp only [Nat.not_le.mpr hnumber, if_false] at h ⊢
  split at h
  · cases h
  · cases h
    simp_all

theorem handleMessage_end (hnumber : session.lastRequestId < requestId) :
    (handleMessage config services (some session) requestId (some .endSession)).2 = none := by
  rw [handleMessage_request (fun _ => Payload.noConfusion) rfl]
  unfold handleSessionRequest
  simp only [Nat.not_le.mpr hnumber, if_false]
  split <;> rfl

theorem handleMessage_start {start : StartSession} {response : StateResponse}
    (h : (handleMessage config services none requestId (some (.startSession start))).1 =
      .stateResponse response) :
    ∃ after, (handleMessage config services none requestId (some (.startSession start))).2 =
        some after ∧ after.lastRequestId = requestId ∧ response.candidates = [] ∧
          response.commit = [] := by
  unfold handleMessage at *
  dsimp only at *
  split at h
  · cases h
  · rename_i session hstart
    cases h
    obtain ⟨-, inputStyle, surrounding, language, rfl⟩ := startSession_eq_ok hstart
    exact ⟨_, rfl, rfl, rfl, rfl⟩

theorem handleMessage_answerRequest (hnumber : session.lastRequestId < requestId)
    {payload : Payload} (hselect : (∃ index, payload = .selectCandidate index) ∨
      (∃ index, payload = .selectTypoCorrection index) ∨ payload = .resetSession) :
    handleMessage config services (some session) requestId (some payload) =
      answerRequest config services { session with lastRequestId := requestId } payload := by
  rcases hselect with ⟨index, rfl⟩ | ⟨index, rfl⟩ | rfl <;>
    exact if_neg (Nat.not_le.mpr hnumber)

theorem answerRequest_ok {payload : Payload} {result : StateResponse × SessionState}
    (hkept : updateSurrounding session payload = .ok session)
    (hresult : handleRequest config services session payload = .ok result) :
    answerRequest config services session payload =
      (.stateResponse result.1, some result.2) := by
  simp [answerRequest, hkept, hresult]

theorem answerRequest_error {payload : Payload} {failure : Failure}
    (hkept : updateSurrounding session payload = .ok session)
    (hresult : handleRequest config services session payload = .error failure) :
    answerRequest config services session payload =
      (.protocolError failure.code failure.message, some session.reset) := by
  simp [answerRequest, hkept, hresult]

theorem handleMessage_select {index : Nat} {candidate : Session.Candidate}
    (hstep : session.InStep config) (hnumber : session.lastRequestId < requestId)
    (hcandidate : session.displayCandidates[index]? = some candidate) :
    let answer := (handleMessage config services (some session) requestId
      (some (.selectCandidate index))).1
    (services.Succeed → ∃ response, answer = .stateResponse response) ∧
      ∀ response, answer = .stateResponse response → response.commit = candidate.text := by
  dsimp only
  rw [handleMessage_answerRequest hnumber (.inl ⟨index, rfl⟩)]
  have hlt := (List.getElem?_eq_some_iff.mp hcandidate).1
  have hsucceeds (hservices : services.Succeed) :=
    hservices.selectCandidateWithRemainderMode config
      { session with lastRequestId := requestId } hlt
      .previewing
  have hrequest : handleRequest config services { session with lastRequestId := requestId }
      (.selectCandidate index) = selectCandidateWithRemainderMode config services
        { session with lastRequestId := requestId } index .previewing := rfl
  cases hresult : selectCandidateWithRemainderMode config services
      { session with lastRequestId := requestId } index .previewing with
  | error failure =>
    rw [answerRequest_error rfl (hrequest.trans hresult)]
    refine ⟨fun hservices => ?_, fun response hresponse => by cases hresponse⟩
    obtain ⟨result, hok⟩ := hsucceeds hservices
    rw [hresult] at hok
    cases hok
  | ok result =>
    rw [answerRequest_ok rfl (hrequest.trans hresult)]
    refine ⟨fun _ => ⟨result.1, rfl⟩, fun response hresponse => ?_⟩
    cases hresponse
    exact (selectCandidateWithRemainderMode_commits hresult hstep.fullComposing hcandidate).1

theorem handleMessage_selectTypo (config : EngineConfig) (services : Services) {index : Nat}
    {correction : TypoCorrectionCandidate} (hnumber : session.lastRequestId < requestId)
    (hcorrection : session.typoCorrections[index]? = some correction) :
    ∃ response, (handleMessage config services (some session) requestId
      (some (.selectTypoCorrection index))).1 = .stateResponse response ∧
        response.commit = correction.convertedText := by
  rw [handleMessage_answerRequest hnumber (.inr (.inl ⟨index, rfl⟩))]
  have hresult : ∃ result, handleRequest config services { session with lastRequestId := requestId }
      (.selectTypoCorrection index) = .ok result ∧ result.1.commit = correction.convertedText := by
    simp [handleRequest, selectTypoCorrection, hcorrection, emptyState]
  obtain ⟨result, hok, hcommit⟩ := hresult
  rw [answerRequest_ok rfl hok]
  exact ⟨result.1, rfl, hcommit⟩

/-- A session is reset whatever it holds, and the answer says that nothing was consumed. -/
theorem handleMessage_reset (config : EngineConfig) (services : Services)
    (hnumber : session.lastRequestId < requestId) :
    ∃ response, (handleMessage config services (some session) requestId
      (some .resetSession)).1 = .stateResponse response ∧ response.consumed = false := by
  rw [handleMessage_answerRequest hnumber (.inr (.inr rfl))]
  exact ⟨_, rfl, rfl⟩

end BeanKey.Engine
