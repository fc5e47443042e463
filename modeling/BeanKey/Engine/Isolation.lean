import BeanKey.Engine.Numbered

/-! The registry of a connection's sessions as the engine keeps it: a session is taken out
while its request is handled, and put back. -/
namespace BeanKey.Engine
open Session Input Protocol

namespace Sessions

def insert (sessions : Sessions) (sessionId : String) (session : SessionState) : Sessions :=
  Function.update sessions sessionId (some session)

def remove (sessions : Sessions) (sessionId : String) : Sessions :=
  Function.update sessions sessionId none

def reset (sessions : Sessions) (sessionId : String) : Sessions :=
  Function.update sessions sessionId ((sessions sessionId).map SessionState.reset)

end Sessions

def errorEnvelope (requestId : Nat) (sessionId : String) (code : Code) (message : String) :
    Envelope :=
  ⟨requestId, sessionId, some (.protocolError code message)⟩

def stateEnvelope (requestId : Nat) (sessionId : String) (response : StateResponse) : Envelope :=
  ⟨requestId, sessionId, some (.stateResponse response)⟩

namespace Registry

section
variable (config : EngineConfig) (services : Services) (sessions : Sessions)

def answerRequest (requestId : Nat) (sessionId : String) (session : SessionState)
    (request : Payload) : Envelope × Sessions :=
  match updateSurrounding session request with
  | .error message =>
    (errorEnvelope requestId sessionId .invalidPayload message,
      (sessions.insert sessionId session).reset sessionId)
  | .ok session =>
    match handleRequest config services session request with
    | .error failure =>
      (errorEnvelope requestId sessionId failure.code failure.message,
        (sessions.insert sessionId session).reset sessionId)
    | .ok (response, session) =>
      (stateEnvelope requestId sessionId response, sessions.insert sessionId session)

def handleSessionRequest (requestId : Nat) (sessionId : String) (request : Payload) :
    Envelope × Sessions :=
  match sessions sessionId with
  | none =>
    (errorEnvelope requestId sessionId .unknownSession "unknown session",
      sessions.remove sessionId)
  | some session =>
    let sessions := sessions.remove sessionId
    if requestId ≤ session.lastRequestId then
      (errorEnvelope requestId sessionId .outOfOrderRequest
        "request ID is not greater than the previous request", sessions.insert sessionId session)
    else
      let session := { session with lastRequestId := requestId }
      match request with
      | .endSession =>
        match services.commitLearning with
        | .error error =>
          (errorEnvelope requestId sessionId .internal
            ("learning memory commit failed: " ++ error), sessions)
        | .ok () =>
          (stateEnvelope requestId sessionId (emptyState session false [] true), sessions)
      | .requestTypoCorrections =>
        match requestTypoCorrections config services session session.composing with
        | .error failure =>
          (errorEnvelope requestId sessionId failure.code failure.message,
            sessions.insert sessionId session.reset)
        | .ok candidates =>
          (⟨requestId, sessionId, some (.typoCorrectionResponse candidates)⟩,
            sessions.insert sessionId { session with typoCorrections := candidates })
      | .pageCandidates page =>
        match pageCandidates session page with
        | none =>
          (errorEnvelope requestId sessionId .invalidPayload "invalid candidate page request",
            sessions.insert sessionId session)
        | some session =>
          let session := { session with liveCandidate := none }
          (stateEnvelope requestId sessionId (makeState session true [] false),
            sessions.insert sessionId session)
      | request => answerRequest config services sessions requestId sessionId session request

def handle (envelope : Envelope) : Envelope × Sessions :=
  let requestId := envelope.requestId
  let sessionId := envelope.sessionId
  match envelope.payload with
  | none => (errorEnvelope requestId sessionId .invalidPayload "missing payload", sessions)
  | some (.startSession start) =>
    match startSession config services (sessions sessionId) requestId start with
    | .error failure =>
      (errorEnvelope requestId sessionId failure.code failure.message, sessions)
    | .ok session =>
      (stateEnvelope requestId sessionId
        { reset := true
          lmTypoAvailable := config.lmTypoEnabled
          learningAvailable := config.learningAvailable
          learningWritable := config.learningWritable }, sessions.insert sessionId session)
  | some payload =>
    if isResponse payload then
      (errorEnvelope requestId sessionId .invalidPayload "response payload sent as a request",
        sessions)
    else handleSessionRequest config services sessions requestId sessionId payload

end

/-! ### The registry does what `handle` says -/

variable {config : EngineConfig} {services : Services} (sessions : Sessions)

theorem insert_remove (sessionId : String) (session : SessionState) :
    (sessions.remove sessionId).insert sessionId session =
      Function.update sessions sessionId (some session) :=
  Function.update_idem _ _ _

theorem reset_insert_remove (sessionId : String) (session : SessionState) :
    ((sessions.remove sessionId).insert sessionId session).reset sessionId =
      Function.update sessions sessionId (some session.reset) := by
  rw [insert_remove, Sessions.reset, Function.update_self, Function.update_idem]
  rfl

theorem answerRequest_eq (requestId : Nat) (sessionId : String) (session : SessionState)
    (request : Payload) :
    answerRequest config services (sessions.remove sessionId) requestId sessionId session request =
      (⟨requestId, sessionId, some (Engine.answerRequest config services session request).1⟩,
        Function.update sessions sessionId
          (Engine.answerRequest config services session request).2) := by
  unfold answerRequest Engine.answerRequest
  cases updateSurrounding session request with
  | error message =>
    dsimp only
    rw [reset_insert_remove]
    rfl
  | ok session =>
    dsimp only
    cases handleRequest config services session request with
    | error failure =>
      dsimp only
      rw [reset_insert_remove]
      rfl
    | ok result =>
      dsimp only
      rw [insert_remove]
      rfl

theorem handleSessionRequest_eq (requestId : Nat) (sessionId : String) (request : Payload)
    {session : SessionState} (h : sessions sessionId = some session) :
    handleSessionRequest config services sessions requestId sessionId request =
      (⟨requestId, sessionId,
        some (Engine.handleSessionRequest config services session requestId request).1⟩,
        Function.update sessions sessionId
          (Engine.handleSessionRequest config services session requestId request).2) := by
  unfold handleSessionRequest Engine.handleSessionRequest
  rw [h]
  dsimp only
  by_cases hstale : requestId ≤ session.lastRequestId
  · rw [if_pos hstale, if_pos hstale, insert_remove]
    rfl
  · rw [if_neg hstale, if_neg hstale]
    cases request with
    | endSession => cases services.commitLearning <;> rfl
    | requestTypoCorrections =>
      dsimp only
      cases requestTypoCorrections config services
        { session with lastRequestId := requestId } session.composing with
      | error failure =>
        dsimp only
        rw [insert_remove]
        rfl
      | ok candidates =>
        dsimp only
        rw [insert_remove]
    | pageCandidates page =>
      dsimp only
      cases pageCandidates { session with lastRequestId := requestId } page with
      | none =>
        dsimp only
        rw [insert_remove]
        rfl
      | some paged =>
        dsimp only
        rw [insert_remove]
        rfl
    | _ => exact answerRequest_eq sessions requestId sessionId _ _

theorem handle_named (requestId : Nat) (sessionId : String) {request : Payload}
    (hstart : ∀ start, request ≠ .startSession start) (hrequest : isResponse request = false) :
    handle config services sessions ⟨requestId, sessionId, some request⟩ =
      Engine.handle config services sessions ⟨requestId, sessionId, some request⟩ := by
  have hhandle : handle config services sessions ⟨requestId, sessionId, some request⟩ =
      handleSessionRequest config services sessions requestId sessionId request := by
    cases request with
    | startSession start => exact absurd rfl (hstart start)
    | stateResponse _ | typoCorrectionResponse _ | protocolError _ _ => cases hrequest
    | _ => rfl
  rw [hhandle, Engine.handle, handleMessage_request hstart hrequest]
  cases hsession : sessions sessionId with
  | none =>
    unfold handleSessionRequest
    rw [hsession]
    rfl
  | some session => exact handleSessionRequest_eq sessions requestId sessionId request hsession

/-- Taking sessions out and putting them back changes the named session as `handle` says. -/
theorem handle_eq (envelope : Envelope) :
    handle config services sessions envelope = Engine.handle config services sessions envelope := by
  obtain ⟨requestId, sessionId, payload⟩ := envelope
  have hkept (answer : Payload) : ((⟨requestId, sessionId, some answer⟩, sessions) :
      Envelope × Sessions) = (⟨requestId, sessionId, some answer⟩,
        Function.update sessions sessionId (sessions sessionId)) := by
    rw [Function.update_eq_self]
  cases payload with
  | none => exact hkept _
  | some payload =>
    cases payload with
    | startSession start =>
      unfold handle Engine.handle handleMessage
      dsimp only
      cases startSession config services (sessions sessionId) requestId start with
      | error failure => exact hkept _
      | ok session => rfl
    | stateResponse response => exact hkept _
    | typoCorrectionResponse candidates => exact hkept _
    | protocolError code message => exact hkept _
    | _ => exact handle_named sessions requestId sessionId (fun _ => Payload.noConfusion) rfl

end Registry

/-! ### Accepted requests -/

/-- A request, with what the services answer while it is handled. -/
structure Request where
  services : Services
  envelope : Envelope

section
variable (config : EngineConfig)

def Request.step (sessions : Sessions) (request : Request) : Sessions :=
  (Registry.handle config request.services sessions request.envelope).2

def Request.run (requests : List Request) (sessions : Sessions) : Sessions :=
  requests.foldl (step config) sessions

def Request.accepted (sessions : Sessions) (request : Request) : Bool :=
  let ⟨requestId, sessionId, payload⟩ := request.envelope
  match payload with
  | none => false
  | some (.startSession start) =>
    (startSession config request.services (sessions sessionId) requestId start).toBool
  | some payload =>
    !isResponse payload && (sessions sessionId).any fun session => session.lastRequestId < requestId

/-- The last number accepted for a session, over a run from `sessions`. -/
def Request.lastAccepted (sessionId : String) :
    List Request → Sessions → Option Nat → Option Nat
  | [], _, last => last
  | request :: requests, sessions, last =>
    lastAccepted sessionId requests (request.step config sessions)
      (if request.envelope.sessionId = sessionId ∧ request.accepted config sessions then
        some request.envelope.requestId else last)

end

variable {config : EngineConfig}

theorem answerRequest_number {services : Services} {session left : SessionState} {payload : Payload}
    (h : (answerRequest config services session payload).2 = some left) :
    left.lastRequestId = session.lastRequestId := by
  unfold answerRequest at h
  split at h
  · cases h
    rfl
  · rename_i updated hupdated
    obtain ⟨surrounding, rfl⟩ := updateSurrounding_eq_ok hupdated
    split at h
    · cases h
      rfl
    · rename_i response after hrequest
      cases h
      have hnumber := handleRequest_numbered config services _ payload response _ hrequest
      exact hnumber

theorem handleSessionRequest_number {services : Services} {session left : SessionState}
    {requestId : Nat} {payload : Payload} (hnew : session.lastRequestId < requestId)
    (h : (handleSessionRequest config services session requestId payload).2 = some left) :
    left.lastRequestId = requestId := by
  unfold handleSessionRequest at h
  rw [if_neg (Nat.not_le.mpr hnew)] at h
  dsimp only at h
  split at h
  · split at h <;> cases h
  · split at h <;> (cases h; rfl)
  · split at h
    · cases h
      rfl
    · rename_i paged hpaged
      cases h
      unfold pageCandidates at hpaged
      grind
  · exact answerRequest_number h

namespace Request

theorem step_eq (sessions : Sessions) (request : Request) :
    request.step config sessions =
      Function.update sessions request.envelope.sessionId
        (handleMessage config request.services (sessions request.envelope.sessionId)
          request.envelope.requestId request.envelope.payload).2 := by
  rw [step, Registry.handle_eq]
  rfl

theorem step_self (sessions : Sessions) (request : Request) :
    request.step config sessions request.envelope.sessionId =
      (handleMessage config request.services (sessions request.envelope.sessionId)
        request.envelope.requestId request.envelope.payload).2 := by
  rw [step_eq, Function.update_self]

/-- A request touches the session it names. -/
theorem step_of_ne (sessions : Sessions) (request : Request) {sessionId : String}
    (h : sessionId ≠ request.envelope.sessionId) :
    request.step config sessions sessionId = sessions sessionId := by
  rw [step_eq, Function.update_of_ne h]

theorem accepted_request {services : Services} {sessions : Sessions} {requestId : Nat}
    {sessionId : String} {payload : Payload} (hstart : ∀ start, payload ≠ .startSession start) :
    accepted config sessions ⟨services, requestId, sessionId, some payload⟩ =
      (!isResponse payload &&
        (sessions sessionId).any fun session => session.lastRequestId < requestId) := by
  cases payload with
  | startSession start => exact absurd rfl (hstart start)
  | _ => rfl

theorem accepted_number {sessions : Sessions} {request : Request}
    (h : request.accepted config sessions = true) :
    (∀ before, sessions request.envelope.sessionId = some before →
      before.lastRequestId < request.envelope.requestId) ∧
    ∀ session, request.step config sessions request.envelope.sessionId = some session →
      session.lastRequestId = request.envelope.requestId := by
  rw [step_self]
  obtain ⟨services, requestId, sessionId, payload⟩ := request
  cases payload with
  | none => cases h
  | some payload =>
    by_cases hstarts : ∃ start, payload = .startSession start
    · obtain ⟨start, rfl⟩ := hstarts
      unfold accepted at h
      unfold handleMessage
      dsimp only at h ⊢
      cases hstart : startSession config services (sessions sessionId) requestId start with
      | error failure =>
        rw [hstart] at h
        cases h
      | ok session =>
        obtain ⟨hnew, inputStyle, surrounding, language, rfl⟩ := startSession_eq_ok hstart
        refine ⟨hnew, ?_⟩
        intro left hleft
        cases hleft
        rfl
    · have hnostart : ∀ start, payload ≠ .startSession start := fun start hstart =>
        hstarts ⟨start, hstart⟩
      rw [accepted_request hnostart, Bool.and_eq_true, Bool.not_eq_true'] at h
      obtain ⟨hrequest, hopen⟩ := h
      dsimp only
      cases hsession : sessions sessionId with
      | none =>
        rw [hsession] at hopen
        cases hopen
      | some session =>
        rw [hsession] at hopen
        have hnew : session.lastRequestId < requestId := by simpa using hopen
        refine ⟨fun before hbefore => by cases hbefore; exact hnew, ?_⟩
        intro left hleft
        rw [handleMessage_request hnostart hrequest] at hleft
        exact handleSessionRequest_number hnew hleft

/-- A request that is not accepted is answered with an error and changes nothing. -/
theorem not_accepted_kept {sessions : Sessions} {request : Request}
    (h : request.accepted config sessions = false) :
    (∃ code message, (Registry.handle config request.services sessions request.envelope).1 =
      errorEnvelope request.envelope.requestId request.envelope.sessionId code message) ∧
    request.step config sessions = sessions := by
  have herror (code : Code) (message : String)
      (h : handleMessage config request.services (sessions request.envelope.sessionId)
        request.envelope.requestId request.envelope.payload =
          (.protocolError code message, sessions request.envelope.sessionId)) :
      (∃ code message, (Registry.handle config request.services sessions request.envelope).1 =
        errorEnvelope request.envelope.requestId request.envelope.sessionId code message) ∧
      request.step config sessions = sessions := by
    refine ⟨⟨code, message, ?_⟩, ?_⟩
    · rw [Registry.handle_eq, Engine.handle, h]
      rfl
    · rw [step_eq, h, Function.update_eq_self]
  obtain ⟨services, requestId, sessionId, payload⟩ := request
  unfold accepted at h
  unfold handleMessage at herror
  dsimp only at h herror
  split at h
  · exact herror _ _ rfl
  · rename_i start
    dsimp only at herror
    cases hstart : startSession config services (sessions sessionId) requestId start with
    | error failure =>
      rw [hstart] at herror
      exact herror _ _ rfl
    | ok session =>
      rw [hstart] at h
      cases h
  · rename_i payload hnostart
    cases payload with
    | startSession start => exact absurd rfl (hnostart start)
    | stateResponse response => exact herror _ _ rfl
    | typoCorrectionResponse candidates => exact herror _ _ rfl
    | protocolError code message => exact herror _ _ rfl
    | _ =>
      dsimp only [isResponse, if_false] at h herror
      cases hsession : sessions sessionId with
      | none =>
        rw [hsession] at herror
        exact herror _ _ rfl
      | some session =>
        rw [hsession] at h herror
        have hstale : requestId ≤ session.lastRequestId := by simpa using h
        have hanswer (payload : Payload) :
            handleSessionRequest config services session requestId payload =
              (.protocolError .outOfOrderRequest
                "request ID is not greater than the previous request", some session) := by
          rw [handleSessionRequest, if_pos hstale]
        exact herror _ _ ((if_neg Bool.false_ne_true).trans (hanswer _))

/-- A session stays open with the number of the last request accepted for it. -/
theorem lastAccepted_number {sessionId : String} (requests : List Request) {sessions : Sessions}
    {last : Option Nat}
    (hlast : ∀ session, sessions sessionId = some session → last = some session.lastRequestId)
    {session : SessionState} (h : run config requests sessions sessionId = some session) :
    lastAccepted config sessionId requests sessions last = some session.lastRequestId := by
  induction requests generalizing sessions last with
  | nil => exact hlast session h
  | cons request requests ih =>
    apply ih
    · intro left hleft
      cases haccepted : request.accepted config sessions with
      | true =>
        by_cases hid : request.envelope.sessionId = sessionId
        · subst hid
          rw [if_pos ⟨rfl, rfl⟩, (accepted_number haccepted).2 left hleft]
        · rw [step_of_ne sessions request (Ne.symm hid)] at hleft
          rw [if_neg fun h => hid h.1]
          exact hlast left hleft
      | false =>
        rw [(not_accepted_kept haccepted).2] at hleft
        rw [if_neg fun h => Bool.false_ne_true h.2]
        exact hlast left hleft
    · exact h

/-- While a session is open its number does not fall. -/
theorem number_le {sessionId : String} {number : Nat} (requests : List Request)
    {sessions : Sessions}
    (hnumber : ∀ session, sessions sessionId = some session → number ≤ session.lastRequestId)
    (hopen : ∀ count ≤ requests.length,
      (run config (requests.take count) sessions sessionId).isSome)
    {session : SessionState} (h : run config requests sessions sessionId = some session) :
    number ≤ session.lastRequestId := by
  induction requests generalizing sessions with
  | nil => exact hnumber session h
  | cons request requests ih =>
    apply ih
    · intro left hleft
      obtain ⟨before, hbefore⟩ := Option.isSome_iff_exists.mp (hopen 0 (Nat.zero_le _))
      have hle : number ≤ before.lastRequestId := hnumber before hbefore
      cases haccepted : request.accepted config sessions with
      | true =>
        by_cases hid : request.envelope.sessionId = sessionId
        · subst hid
          have hnew := (accepted_number haccepted).1 before hbefore
          have hleft := (accepted_number haccepted).2 left hleft
          omega
        · rw [step_of_ne sessions request (Ne.symm hid)] at hleft
          exact hnumber left hleft
      | false =>
        rw [(not_accepted_kept haccepted).2] at hleft
        exact hnumber left hleft
    · exact fun count hcount => hopen (count + 1) (Nat.succ_le_succ hcount)
    · exact h

end Request

open Request in
/-- After any requests: a request whose number is not greater than the last one accepted for its
session is answered with an error and leaves every session as it was; a request changes no
session but the one it names; and while a session is open, the numbers accepted for it rise. -/
theorem requests_in_order (config : EngineConfig) (requests : List Request) :
    let sessions := run config requests Sessions.fresh
    (∀ (request : Request) session last,
      sessions request.envelope.sessionId = some session →
      lastAccepted config request.envelope.sessionId requests Sessions.fresh none = some last →
      request.envelope.requestId ≤ last →
      (∃ code message, (Registry.handle config request.services sessions request.envelope).1 =
        errorEnvelope request.envelope.requestId request.envelope.sessionId code message) ∧
      (Registry.handle config request.services sessions request.envelope).2 = sessions) ∧
    (∀ (services : Services) (envelope : Envelope) sessionId, sessionId ≠ envelope.sessionId →
      (Registry.handle config services sessions envelope).2 sessionId = sessions sessionId) ∧
    ∀ (first last : Request) (between : List Request),
      first.accepted config sessions = true →
      last.accepted config (run config (first :: between) sessions) = true →
      last.envelope.sessionId = first.envelope.sessionId →
      (∀ count ≤ between.length,
        (run config (first :: between.take count) sessions first.envelope.sessionId).isSome) →
      first.envelope.requestId < last.envelope.requestId := by
  intro sessions
  refine ⟨?_, ?_, ?_⟩
  · intro request session last hsession hlast hstale
    have hnumber : lastAccepted config request.envelope.sessionId requests Sessions.fresh none =
        some session.lastRequestId :=
      lastAccepted_number requests (by intro session hnone; cases hnone) hsession
    have hle : request.envelope.requestId ≤ session.lastRequestId := by
      rw [hnumber, Option.some.injEq] at hlast
      omega
    have hrefused : request.accepted config sessions = false := by
      rw [Bool.eq_false_iff]
      intro haccepted
      exact absurd hle (Nat.not_le.mpr ((accepted_number haccepted).1 session hsession))
    exact not_accepted_kept hrefused
  · intro services envelope sessionId hne
    exact step_of_ne sessions ⟨services, envelope⟩ hne
  · intro first last between hfirst hlast hsame hopen
    obtain ⟨before, hbefore⟩ := Option.isSome_iff_exists.mp (hopen between.length le_rfl)
    rw [List.take_length] at hbefore
    have hle : first.envelope.requestId ≤ before.lastRequestId :=
      number_le between (fun session hsession => ((accepted_number hfirst).2 session hsession).ge)
        hopen hbefore
    rw [← hsame] at hbefore
    exact hle.trans_lt ((accepted_number hlast).1 before hbefore)

end BeanKey.Engine
