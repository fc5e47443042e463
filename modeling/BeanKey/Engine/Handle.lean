import BeanKey.Engine.Keys

/-! The engine: its sessions, the messages it handles, and the states it can reach. -/
namespace BeanKey.Engine
open Session Input Protocol

abbrev Sessions := String → Option SessionState

section
variable (config : EngineConfig) (services : Services)

def inputStyle (style : Protocol.InputStyle) (customTable : Text) : Option Input.InputStyle :=
  match style with
  | .unspecified | .unknown => none
  | .direct => some .direct
  | .romanToKana => some .romanToKana
  | .azik => some (.mapped .defaultAzik)
  | .kanaJis => some (.mapped .defaultKanaJis)
  | .kanaUs => some (.mapped .defaultKanaUs)
  | .custom =>
    if (config.tables.custom customTable).isSome then some (.mapped (.named customTable)) else none

def startInputStyle (start : StartSession) : Option Input.InputStyle :=
  if start.inputStyle = .unspecified then some config.defaultInputStyle
  else inputStyle config start.inputStyle start.customInputTable

def startKeyboardLanguage (start : StartSession) : Option (Option KeyboardLanguage) :=
  match start.keyboardLanguage with
  | .unspecified => some config.defaultKeyboardLanguage
  | .unknown => none
  | language => some (some language)

def newSession (requestId : Nat) (inputStyle : Input.InputStyle) (surrounding : SurroundingContext)
    (keyboardLanguage : Option KeyboardLanguage) : SessionState :=
  { inputStyle
    lastRequestId := requestId
    liveConversionEnabled := config.liveConversion
    surrounding
    requestOptions := { config.requestOptions with keyboardLanguage }
    lmTypoAvailable := config.lmTypoEnabled
    learningAvailable := config.learningAvailable
    learningWritable := config.learningWritable }

def startSession (previous : Option SessionState) (requestId : Nat) (start : StartSession) :
    Except Failure SessionState :=
  if previous.any fun session => requestId ≤ session.lastRequestId then
    .error ⟨.outOfOrderRequest, "request ID is not greater than the previous request"⟩
  else
    match startInputStyle config start with
    | none => .error ⟨.invalidPayload, "invalid input style"⟩
    | some inputStyle =>
      match surroundingContext start.surroundingText with
      | .error message => .error ⟨.invalidPayload, message⟩
      | .ok surrounding =>
        match startKeyboardLanguage config start with
        | none => .error ⟨.invalidPayload, "invalid keyboard language"⟩
        | some language =>
          match services.openUserDictionary with
          | .error error => .error (internal "user dictionary initialization" error)
          | .ok () =>
            match services.openLearning with
            | .error error => .error (internal "learning memory initialization" error)
            | .ok () => .ok (newSession config requestId inputStyle surrounding language)

def updateSurrounding (session : SessionState) : Payload → Except String SessionState
  | .keyEvent event =>
    match event.surroundingText with
    | none => .ok session
    | some surrounding =>
      (surroundingContext (some surrounding)).map fun surrounding => { session with surrounding }
  | _ => .ok session

def commitComposition (session : SessionState) : KeyResult :=
  let commit := session.currentMarkedText
  let session := session.reset
  .ok (emptyState session (commit ≠ []) commit (commit ≠ []), session)

def invalidSessionRequest : Failure := ⟨.invalidPayload, "invalid session request"⟩

def handleRequest (session : SessionState) : Payload → KeyResult
  | .resetSession => .ok (emptyState session.reset false [] true, session.reset)
  | .keyEvent event => handleKey config services session event
  | .selectCandidate index => selectCandidate config services session index
  | .selectTypoCorrection index => selectTypoCorrection session index
  | .forgetCandidate index => forgetCandidate config services session index
  | .resetLearning => resetLearning config services session
  | .commitComposition => commitComposition session
  | _ => .error invalidSessionRequest

def answerRequest (session : SessionState) (request : Payload) : Payload × Option SessionState :=
  match updateSurrounding session request with
  | .error message => (.protocolError .invalidPayload message, some session.reset)
  | .ok session =>
    match handleRequest config services session request with
    | .error failure => (.protocolError failure.code failure.message, some session.reset)
    | .ok (response, session) => (.stateResponse response, some session)

def handleSessionRequest (session : SessionState) (requestId : Nat) (request : Payload) :
    Payload × Option SessionState :=
  if requestId ≤ session.lastRequestId then
    (.protocolError .outOfOrderRequest "request ID is not greater than the previous request",
      some session)
  else
    let session := { session with lastRequestId := requestId }
    match request with
    | .endSession =>
      match services.commitLearning with
      | .error error =>
        (.protocolError .internal ("learning memory commit failed: " ++ error), none)
      | .ok () => (.stateResponse (emptyState session false [] true), none)
    | .requestTypoCorrections =>
      match requestTypoCorrections config services session session.composing with
      | .error failure => (.protocolError failure.code failure.message, some session.reset)
      | .ok candidates =>
        (.typoCorrectionResponse candidates, some { session with typoCorrections := candidates })
    | .pageCandidates page =>
      match pageCandidates session page with
      | none => (.protocolError .invalidPayload "invalid candidate page request", some session)
      | some session =>
        let session := { session with liveCandidate := none }
        (.stateResponse (makeState session true [] false), some session)
    | request => answerRequest config services session request

def isResponse : Payload → Bool
  | .stateResponse _ | .typoCorrectionResponse _ | .protocolError _ _ => true
  | _ => false

def handleMessage (previous : Option SessionState) (requestId : Nat) (payload : Option Payload) :
    Payload × Option SessionState :=
  match payload with
  | none => (.protocolError .invalidPayload "missing payload", previous)
  | some (.startSession start) =>
    match startSession config services previous requestId start with
    | .error failure => (.protocolError failure.code failure.message, previous)
    | .ok session =>
      (.stateResponse
        { reset := true
          lmTypoAvailable := config.lmTypoEnabled
          learningAvailable := config.learningAvailable
          learningWritable := config.learningWritable }, some session)
  | some payload =>
    if isResponse payload then
      (.protocolError .invalidPayload "response payload sent as a request", previous)
    else
      match previous with
      | none => (.protocolError .unknownSession "unknown session", none)
      | some session => handleSessionRequest config services session requestId payload

/-- Only the named session changes. -/
def handle (sessions : Sessions) (envelope : Envelope) : Envelope × Sessions :=
  let (answer, session) := handleMessage config services (sessions envelope.sessionId)
    envelope.requestId envelope.payload
  ({ envelope with payload := some answer }, Function.update sessions envelope.sessionId session)

end

theorem handleMessage_request {config : EngineConfig} {services : Services}
    {previous : Option SessionState} {requestId : Nat} {payload : Payload}
    (hstart : ∀ start, payload ≠ .startSession start) (hrequest : isResponse payload = false) :
    handleMessage config services previous requestId (some payload) =
      match previous with
      | none => (.protocolError .unknownSession "unknown session", none)
      | some session => handleSessionRequest config services session requestId payload := by
  cases payload with
  | startSession start => exact absurd rfl (hstart start)
  | stateResponse _ | typoCorrectionResponse _ | protocolError _ _ => cases hrequest
  | _ => rfl

def Sessions.fresh : Sessions := fun _ => none

/-- The sessions that messages reach, every message with its own answers of the services,
where `allowed` says which steps a session takes. -/
inductive Reached (config : EngineConfig)
    (allowed : Services → Option SessionState → Option Payload → Prop) : Sessions → Prop
  | fresh : Reached config allowed Sessions.fresh
  | handle {sessions : Sessions} (services : Services) (envelope : Envelope) :
      Reached config allowed sessions →
      allowed services (sessions envelope.sessionId) envelope.payload →
      Reached config allowed (handle config services sessions envelope).2

abbrev Reachable (config : EngineConfig) : Sessions → Prop := Reached config fun _ _ _ => True

/-- What holds of every session a message leaves, holds of every session. -/
theorem Reached.induction {config : EngineConfig}
    {allowed : Services → Option SessionState → Option Payload → Prop}
    {invariant : SessionState → Prop}
    (hstep : ∀ services previous requestId payload session,
      (∀ before, previous = some before → invariant before) → allowed services previous payload →
      (handleMessage config services previous requestId payload).2 = some session →
      invariant session)
    {sessions : Sessions} (h : Reached config allowed sessions) :
    ∀ sessionId session, sessions sessionId = some session → invariant session := by
  induction h with
  | fresh => intro sessionId session hnone; cases hnone
  | @handle sessions services envelope _ hallowed ih =>
    intro sessionId session hsession
    by_cases hid : sessionId = envelope.sessionId
    · subst hid
      have hleft : (handleMessage config services (sessions envelope.sessionId)
          envelope.requestId envelope.payload).2 = some session := by
        simpa [Engine.handle] using hsession
      exact hstep services _ _ _ session (fun before => ih _ before) hallowed hleft
    · have hkept : sessions sessionId = some session := by
        simpa [Engine.handle, Function.update_of_ne hid] using hsession
      exact ih sessionId session hkept

def runMessages (config : EngineConfig) (services : Services) (sessionId : String) :
    Nat → List Payload → Sessions → Sessions
  | _, [], sessions => sessions
  | requestId, payload :: payloads, sessions =>
    runMessages config services sessionId (requestId + 1) payloads
      (handle config services sessions ⟨requestId, sessionId, some payload⟩).2

theorem runMessages_reachable {config : EngineConfig} {services : Services} {sessionId : String}
    (payloads : List Payload) (requestId : Nat) {sessions : Sessions}
    (h : Reachable config sessions) :
    Reachable config (runMessages config services sessionId requestId payloads sessions) := by
  induction payloads generalizing requestId sessions with
  | nil => exact h
  | cons payload payloads ih => exact ih (requestId + 1) (.handle services _ h trivial)

end BeanKey.Engine
