import BeanKey.Library.Lease
import BeanKey.Macos.Panel

/-! What holds of an input session and of the connection it works through, and what a request leaves
of it. -/
namespace BeanKey.Macos
open Engine Protocol Leasing

/-! ### What holds of an input session -/

namespace InputSession
variable {session : InputSession} {held : SessionState} {response : StateResponse}

/-- What an input session knows of the session that the daemon holds for it. -/
structure Agrees (session : InputSession) (held : SessionState) : Prop where
  number : held.lastRequestId < session.nextRequest
  shown : Shows held session.state
  typos : session.panel.typoCandidates ≠ [] → held.typoCorrections = session.panel.typoCandidates
  indices : session.panel.typoCandidates = [] → ∀ index ∈ session.panel.indices,
    index < held.displayCandidates.length

/-- What an input session displays. Without a session that is nothing, and a session has a
client. -/
structure Tidy (session : InputSession) : Prop where
  panel : session.panel.Tidy session.state
  shown : Displays session.calls session.state
  client : session.sessionId ≠ "" → session.textClient = true
  idle : session.sessionId = "" → session.panel = .cleared ∧ session.state = {}

def lease (session : InputSession) : Option (Lease String SessionState) :=
  if session.sessionId = "" then none
  else some ⟨session.generation, session.sessionId, session.Agrees⟩

theorem lease_idle (h : session.sessionId = "") : session.lease = none := if_pos h

theorem lease_named (h : session.sessionId ≠ "") :
    session.lease = some ⟨session.generation, session.sessionId, session.Agrees⟩ := if_neg h

theorem Tidy.clear (h : session.Tidy) : session.clear.Tidy where
  panel := CandidatePanel.tidy_cleared _
  shown := by
    refine displays_of_blank (fun client field hfield => ?_) rfl (.of_empty rfl rfl)
    show client.Blank (client.after field (if session.textClient = true ∧ session.state.preedit ≠ []
      then session.calls ++ [.setMarkedText (.plain []) 0] else session.calls))
    split
    · rw [TextClient.after_append]
      exact client.blank_cleared _
    · next hnone =>
      have hpreedit : session.state.preedit = [] := by
        by_contra hne
        refine hnone ⟨h.client fun hname => hne ?_, hne⟩
        rw [(h.idle hname).2]
      exact h.shown.blank hpreedit client field hfield
  client := fun hname => absurd rfl hname
  idle := fun _ => ⟨rfl, rfl⟩

theorem clear_inserted (session : InputSession) : session.clear.inserted = session.inserted := by
  unfold InputSession.clear InputSession.inserted
  dsimp only
  split
  · exact List.filterMap_append.trans (List.append_nil _)
  · rfl

/-- Only what is displayed counts. -/
theorem Tidy.congr (h : session.Tidy) {after : InputSession} (hpanel : after.panel = session.panel)
    (hcalls : after.calls = session.calls) (hstate : after.state = session.state)
    (hclient : session.textClient = true → after.textClient = true)
    (hname : after.sessionId = session.sessionId) : after.Tidy where
  panel := by rw [hpanel, hstate]; exact h.panel
  shown := by rw [hcalls, hstate]; exact h.shown
  client := fun hne => hclient (h.client (hname ▸ hne))
  idle := fun hnone => by rw [hpanel, hstate]; exact h.idle (hname ▸ hnone)

theorem listed_index (h : Shows held response) {candidate : Protocol.Candidate}
    (hin : candidate ∈ response.candidates) : candidate.index < held.displayCandidates.length := by
  obtain ⟨place, shown, hshown, -, hplace⟩ := h.listed candidate hin
  have hlt := (List.getElem?_eq_some_iff.mp hshown).1
  omega

theorem showState_indices (panel : CandidatePanel) (h : Shows held response) :
    ∀ index ∈ (panel.showState response).indices, index < held.displayCandidates.length := by
  intro index hindex
  obtain ⟨candidate, hcandidate, rfl⟩ := List.mem_map.mp hindex
  exact listed_index h (CandidatePanel.mem_shownCandidates hcandidate)

end InputSession

/-! ### What the daemon is sent -/

/-- The first request of a session that has no candidates yet, to select or to forget one. -/
structure Stray (sessions : Sessions) (envelope : Envelope) : Prop where
  first : envelope.requestId = 2
  session : ∃ held, sessions envelope.sessionId = some held ∧ held.lastRequestId = 1 ∧
    held.displayCandidates = []
  selects : ∃ index, envelope.payload = some (.selectCandidate index) ∨
    envelope.payload = some (.forgetCandidate index)

def Expected (sessions : Sessions) (envelope : Envelope) : Prop :=
  Welcome sessions envelope ∨ Stray sessions envelope

def Refused : Payload → Prop
  | .stateResponse _ | .typoCorrectionResponse _ => False
  | _ => True

/-- A session without candidates refuses to select or to forget one. -/
theorem handleMessage_stray {config : EngineConfig} {services : Services} {held : SessionState}
    {requestId : Nat} {payload : Payload} (hnone : held.displayCandidates = [])
    (hselects : ∃ index, payload = .selectCandidate index ∨ payload = .forgetCandidate index) :
    Refused (handleMessage config services (some held) requestId (some payload)).1 := by
  have hrequest : ∃ failure, handleRequest config services
      { held with lastRequestId := requestId } payload = .error failure := by
    obtain ⟨index, rfl | rfl⟩ := hselects
    · exact ⟨outsideCandidates index, by
        simp [handleRequest, selectCandidate, selectCandidateWithRemainderMode, hnone]⟩
    · exact ⟨outsideCandidates index, by simp [handleRequest, forgetCandidate, hnone]⟩
  obtain ⟨failure, hfailure⟩ := hrequest
  have hkept : updateSurrounding { held with lastRequestId := requestId } payload =
      .ok { held with lastRequestId := requestId } := by
    obtain ⟨index, rfl | rfl⟩ := hselects <;> rfl
  have hanswer : (handleMessage config services (some held) requestId (some payload)).1 =
      .protocolError .outOfOrderRequest "request ID is not greater than the previous request" ∨
      handleMessage config services (some held) requestId (some payload) =
        answerRequest config services { held with lastRequestId := requestId } payload := by
    obtain ⟨index, rfl | rfl⟩ := hselects <;>
    · by_cases hnumber : requestId ≤ held.lastRequestId
      · exact .inl (congrArg Prod.fst (if_pos hnumber))
      · exact .inr (if_neg hnumber)
  rcases hanswer with hanswer | hanswer
  · rw [hanswer]
    trivial
  · rw [hanswer, answerRequest_error hkept hfailure]
    trivial

theorem handleMessage_started {config : EngineConfig} {services : Services} {requestId : Nat}
    {start : StartSession} {response : StateResponse}
    (h : (handleMessage config services none requestId (some (.startSession start))).1 =
      .stateResponse response) :
    response.preedit = [] ∧ ∃ after,
      (handleMessage config services none requestId (some (.startSession start))).2 = some after ∧
        after.lastRequestId = requestId ∧ after.displayCandidates = [] ∧ Shows after response := by
  unfold handleMessage at *
  dsimp only at *
  split at h
  · cases h
  · rename_i session hstart
    cases h
    obtain ⟨-, inputStyle, surrounding, language, rfl⟩ := startSession_eq_ok hstart
    exact ⟨rfl, _, rfl, rfl, rfl, .of_empty rfl⟩

/-! ### What holds of the connection -/

structure Unique (uuid : Nat → String) : Prop where
  injective : Function.Injective uuid
  named : ∀ number, uuid number ≠ ""

namespace DaemonConnection
variable {config : EngineConfig} {uuid : Nat → String} {connection : DaemonConnection}

/-- A generation is an era. -/
def link (connection : DaemonConnection) : Link String SessionState where
  era := connection.generation
  registry := connection.sessions

/-- What the daemon holds is in step and was named here, and every message was expected. -/
structure Sound (config : EngineConfig) (uuid : Nat → String) (connection : DaemonConnection) :
    Prop where
  inStep : ∀ sessionId session, connection.sessions sessionId = some session →
    session.InStep config
  named : ∀ sessionId session, connection.sessions sessionId = some session →
    ∃ number < connection.issued, sessionId = uuid number
  closed : connection.ready = false → connection.sessions = Sessions.fresh
  prepared : connection.ready = true → connection.preparing = none
  expected : ∀ handled ∈ connection.handled, Expected handled.sessions handled.envelope

theorem Sound.free (h : connection.Sound config uuid) (hunique : Unique uuid) :
    connection.sessions (uuid connection.issued) = none := by
  cases hsession : connection.sessions (uuid connection.issued) with
  | none => rfl
  | some session =>
    obtain ⟨number, hlt, hname⟩ := h.named _ session hsession
    have := hunique.injective hname
    omega

theorem Sound.fresh (h : connection.Sound config uuid) {after : DaemonConnection}
    (hsessions : after.sessions = Sessions.fresh) (hhandled : after.handled = connection.handled)
    (hprepared : after.ready = true → after.preparing = none) : after.Sound config uuid where
  inStep := by simp [hsessions, Sessions.fresh]
  named := by simp [hsessions, Sessions.fresh]
  closed := fun _ => hsessions
  prepared := hprepared
  expected := hhandled ▸ h.expected

theorem Sound.disconnect (h : connection.Sound config uuid) :
    connection.disconnect.Sound config uuid :=
  h.fresh rfl rfl fun hready => by cases hready

theorem Sound.prepare (h : connection.Sound config uuid) :
    connection.prepare.Sound config uuid := by
  unfold DaemonConnection.prepare
  split
  · exact h
  · next hidle =>
    simp only [not_or, Bool.not_eq_true] at hidle
    exact ⟨h.inStep, h.named, h.closed, fun hready => by simp [hidle.1] at hready, h.expected⟩

theorem link_prepare (connection : DaemonConnection) :
    connection.prepare.link = connection.link := by
  unfold DaemonConnection.prepare
  split <;> rfl

/-- A new client comes without sessions, where there were none. -/
theorem Sound.clientPrepared (h : connection.Sound config uuid) (connected : Bool) :
    (connection.prepared connected).Sound config uuid ∧
      (connection.prepared connected).link = connection.link := by
  unfold DaemonConnection.prepared
  cases hpreparing : connection.preparing with
  | none => exact ⟨h, rfl⟩
  | some generation =>
    dsimp only
    have hclosed : connection.ready = false := by
      cases hready : connection.ready with
      | false => rfl
      | true => simp [h.prepared hready] at hpreparing
    split
    · exact ⟨⟨h.inStep, h.named, h.closed, fun _ => rfl, h.expected⟩, rfl⟩
    · refine ⟨h.fresh rfl rfl fun _ => rfl, ?_⟩
      simp [link, h.closed hclosed]

theorem request_cases (config : EngineConfig) (outside : Nat → Outside) (envelope : Envelope)
    (hready : connection.ready = true) :
    (∃ sessions handled time, connection.request config outside envelope =
      (none, { connection with sessions, handled, time }.disconnect)) ∨
    ∃ services handled time answer, ¬ Refused answer ∧
      (handle config services connection.sessions envelope).1.payload = some answer ∧
      connection.request config outside envelope =
        (some answer,
          { connection with
            sessions := (handle config services connection.sessions envelope).2,
              handled, time }) := by
  unfold request
  rw [if_pos hready]
  dsimp only
  split
  · split
    · next state hstate =>
      refine .inr ⟨_, _, _, .stateResponse state, not_false, ?_, rfl⟩
      exact (Option.ite_none_right_eq_some.mp hstate).2
    · next candidates hcandidates =>
      refine .inr ⟨_, _, _, .typoCorrectionResponse candidates, not_false, ?_, rfl⟩
      exact (Option.ite_none_right_eq_some.mp hcandidates).2
    · exact .inl ⟨_, _, _, rfl⟩
  · exact .inl ⟨_, _, _, rfl⟩

theorem Sound.request (h : connection.Sound config uuid) (outside : Nat → Outside)
    {envelope : Envelope} (hexpected : Expected connection.sessions envelope) {number : Nat}
    (hnumber : number < connection.issued) (hname : envelope.sessionId = uuid number) :
    (connection.request config outside envelope).2.Sound config uuid := by
  have hhandled (response : Envelope) (delivered : Bool) :
      ∀ handled ∈ connection.handled ++ [⟨connection.sessions, envelope, response, delivered⟩],
        Expected handled.sessions handled.envelope := by
    simpa [or_imp, forall_and] using ⟨h.expected, hexpected⟩
  have hasked (services : Services) (time : Nat) (response : Envelope) (delivered : Bool)
      (hready : connection.ready = true) :
      ({ connection with
          time
          sessions := (handle config services connection.sessions envelope).2
          handled := connection.handled ++
            [⟨connection.sessions, envelope, response, delivered⟩] } :
        DaemonConnection).Sound config uuid := by
    have hcases (sessionId : String) (session : SessionState)
        (hsession : (handle config services connection.sessions envelope).2 sessionId =
          some session) :
        session.InStep config ∧ ∃ number < connection.issued, sessionId = uuid number := by
      rw [handle_snd] at hsession
      by_cases hsame : sessionId = envelope.sessionId
      · subst hsame
        rw [Function.update_self] at hsession
        exact ⟨handleMessage_inStep (fun before => h.inStep _ before) hsession, number, hnumber,
          hname⟩
      · rw [Function.update_of_ne hsame] at hsession
        exact ⟨h.inStep _ _ hsession, h.named _ _ hsession⟩
    exact ⟨fun sessionId session hsession => (hcases sessionId session hsession).1,
      fun sessionId session hsession => (hcases sessionId session hsession).2,
      fun hclosed => by simp [hready] at hclosed, h.prepared, hhandled response delivered⟩
  unfold DaemonConnection.request
  split
  · next hready =>
    dsimp only
    split
    · split
      · exact hasked _ _ _ _ hready
      · exact hasked _ _ _ _ hready
      · exact (hasked _ _ _ _ hready).disconnect
    · exact h.fresh rfl rfl fun hready => by cases hready
  · exact h

end DaemonConnection

/-! ### An input session on its connection -/

namespace Context
variable {config : EngineConfig} {uuid : Nat → String} (outside : Nat → Outside) {context : Context}
  {era : Nat} {others : String → Option SessionState}

/-- An input session between two calls, where `others` is what the other ones had in `era`. -/
structure Sound (config : EngineConfig) (uuid : Nat → String) (era : Nat)
    (others : String → Option SessionState) (context : Context) : Prop where
  connection : context.connection.Sound config uuid
  shares : Shares context.connection.link era others context.session.lease
  tidy : context.session.Tidy

structure Live (context : Context) : Prop where
  named : context.session.sessionId ≠ ""
  generation : context.session.generation = context.connection.generation

theorem Live.shares (hlive : context.Live) (h : context.Sound config uuid era others) :
    Shares context.connection.link era others
      (some ⟨context.session.generation, context.session.sessionId, context.session.Agrees⟩) :=
  InputSession.lease_named hlive.named ▸ h.shares

theorem Live.held (hlive : context.Live) (h : context.Sound config uuid era others) :
    ∃ held, context.connection.sessions context.session.sessionId = some held ∧
      context.session.Agrees held :=
  (hlive.shares h).held _ rfl hlive.generation

theorem Live.ready (hlive : context.Live) (h : context.Sound config uuid era others) :
    context.connection.ready = true := by
  obtain ⟨held, hheld, -⟩ := hlive.held h
  by_contra hclosed
  simp [h.connection.closed (by simpa using hclosed), Sessions.fresh] at hheld

/-! ### Losing the session -/

/-- In a later generation it does not matter what had been asked in an earlier one. -/
theorem Sound.later (h : context.Sound config uuid era others) {after : Context}
    (hconnection : after.connection.Sound config uuid)
    (hgeneration : context.connection.generation < after.connection.generation)
    (hsessions : after.connection.sessions = Sessions.fresh) (hname : after.session.sessionId = "")
    (htidy : after.session.Tidy) : after.Sound config uuid era others where
  connection := hconnection
  shares := by
    rw [InputSession.lease_idle hname]
    exact h.shares.ended hgeneration fun name => by
      simp [DaemonConnection.link, hsessions, Sessions.fresh]
  tidy := htidy

/-- What is not live has no lease, or one that is over. -/
theorem Sound.idle (h : context.Sound config uuid era others) (hover : ¬ context.Live)
    {session : InputSession} (hname : session.sessionId = "") (htidy : session.Tidy) :
    (⟨context.connection, session⟩ : Context).Sound config uuid era others where
  connection := h.connection
  shares := by
    have hshares := h.shares
    rw [InputSession.lease_idle hname]
    by_cases hidle : context.session.sessionId = ""
    · rwa [InputSession.lease_idle hidle] at hshares
    · rw [InputSession.lease_named hidle] at hshares
      exact hshares.dropped fun hcurrent => hover ⟨hidle, hcurrent⟩
  tidy := htidy

theorem Sound.current (h : context.Sound config uuid era others) :
    context.current.Sound config uuid era others := by
  unfold Context.current
  split
  · next hstale => exact h.idle (fun hlive => hstale hlive.generation) rfl h.tidy.clear
  · exact h

theorem current_cases (context : Context) :
    context.current = context ∧ context.Live ∨
      context.current.session.sessionId = "" ∧ ¬ context.Live := by
  unfold Context.current
  split
  · next hstale => exact .inr ⟨rfl, fun hlive => hstale hlive.generation⟩
  · next hsame =>
    by_cases hname : context.session.sessionId = ""
    · exact .inr ⟨hname, fun hlive => hlive.named hname⟩
    · exact .inl ⟨rfl, hname, not_not.mp hsame⟩

theorem current_textClient (context : Context) :
    context.current.session.textClient = context.session.textClient ∧
      context.current.connection = context.connection := by
  unfold Context.current
  split <;> exact ⟨rfl, rfl⟩

/-! ### Asking the daemon -/

theorem Live.welcome (hlive : context.Live) (h : context.Sound config uuid era others)
    {payload : Payload} (hfits : ∀ held, context.session.Agrees held → Fits held payload) :
    Expected context.connection.sessions
      ⟨context.session.nextRequest, context.session.sessionId, some payload⟩ := by
  obtain ⟨held, hheld, hagrees⟩ := hlive.held h
  exact .inl ((hfits held hagrees).welcome hheld hagrees.number)

theorem Live.request_cases (hlive : context.Live) (h : context.Sound config uuid era others)
    (payload : Payload) (hexpected : Expected context.connection.sessions
      ⟨context.session.nextRequest, context.session.sessionId, some payload⟩) :
    let after := context.request config outside payload
    after.2.connection.Sound config uuid ∧
    after.2.session = { context.session with nextRequest := context.session.nextRequest + 1 } ∧
    (after.1 = none ∧ after.2.connection.ready = false ∧
        after.2.connection.generation = context.connection.generation + 1 ∨
      ∃ services held answer, context.connection.sessions context.session.sessionId = some held ∧
        context.session.Agrees held ∧ after.1 = some answer ∧ ¬ Refused answer ∧
        after.2.connection.ready = true ∧
        after.2.connection.generation = context.connection.generation ∧
        (handleMessage config services (some held) context.session.nextRequest
          (some payload)).1 = answer ∧
        after.2.connection.sessions =
          Function.update context.connection.sessions context.session.sessionId
            (handleMessage config services (some held) context.session.nextRequest
              (some payload)).2) := by
  obtain ⟨held, hheld, hagrees⟩ := hlive.held h
  obtain ⟨number, hnumber, hname⟩ := h.connection.named _ _ hheld
  have hready := hlive.ready h
  have hsound := h.connection.request outside hexpected hnumber hname
  dsimp only [Context.request]
  rcases DaemonConnection.request_cases config outside
      ⟨context.session.nextRequest, context.session.sessionId, some payload⟩ hready
    with ⟨sessions, handled, time, hlost⟩ | ⟨services, handled, time, answer, haccepted,
      hanswer, hasked⟩
  · rw [hlost] at hsound ⊢
    exact ⟨hsound, rfl, .inl ⟨rfl, rfl, rfl⟩⟩
  · rw [hasked] at hsound ⊢
    refine ⟨hsound, rfl, .inr ⟨services, held, answer, hheld, hagrees, rfl, haccepted, hready, rfl,
      ?_, ?_⟩⟩
    · simpa [handle_fst, hheld] using hanswer
    · simp [handle_snd, hheld]

/-- The session without the connection that it was in. -/
theorem Sound.lost (h : context.Sound config uuid era others) {after : Context}
    (hconnection : after.connection.Sound config uuid)
    (hgeneration : context.connection.generation ≤ after.connection.generation)
    (htidy : after.session.Tidy) : after.fail.Sound config uuid era others :=
  h.later hconnection.disconnect (Nat.lt_succ_of_le hgeneration) rfl rfl htidy.clear

/-- The requests that are answered with a state, and do not end the session. -/
def Asks (session : InputSession) (payload : Payload) : Prop :=
  payload ≠ .endSession ∧ ∀ held, session.Agrees held → Fits held payload

theorem Live.send (hlive : context.Live) (h : context.Sound config uuid era others)
    (payload : Payload) (hasks : Asks context.session payload) :
    (context.send config outside payload).2.Sound config uuid era others := by
  have hcases := hlive.request_cases outside h payload (hlive.welcome h hasks.2)
  unfold Context.send
  dsimp only at hcases ⊢
  generalize context.request config outside payload = after at hcases ⊢
  obtain ⟨answer, asked⟩ := after
  obtain ⟨hconnection, hsession, hcases⟩ := hcases
  dsimp only at *
  have htidy : asked.session.Tidy := by
    rw [hsession]
    exact h.tidy.congr rfl rfl rfl id rfl
  have hfail : asked.fail.Sound config uuid era others := by
    refine h.lost hconnection ?_ htidy
    rcases hcases with ⟨-, -, hgeneration⟩ | ⟨-, -, -, -, -, -, -, -, hgeneration, -⟩ <;> omega
  rcases hcases
    with ⟨rfl, -⟩ | ⟨services, held, answer, hheld, hagrees, rfl, -, -, hgeneration, hanswer,
    hsessions⟩
  · exact hfail
  · split
    · next state hstate =>
      cases hstate
      obtain ⟨left, hleft, hnumber, hshows⟩ := handleMessage_state
        (h.connection.inStep _ _ hheld) hagrees.number (hasks.2 held hagrees) hasks.1 hanswer
      obtain ⟨calls, hcalls, hdisplays, -⟩ := htidy.shown.applyText (handleMessage_inside hanswer)
        (outside context.connection.time).underlines
      rw [hcalls]
      refine ⟨hconnection, ?_, ?_⟩
      · rw [InputSession.lease_named (by rw [hsession]; exact hlive.named)]
        refine (hlive.shares h).updated hlive.generation hgeneration (hleft ▸ hsessions) ?_ ?_ ?_
        · simp [hsession]
        · simp [hsession]
        · refine ⟨?_, hshows, fun hne => absurd rfl hne, fun _ => ?_⟩
          · simp [hsession, hnumber]
          · exact InputSession.showState_indices _ hshows
      · refine ⟨CandidatePanel.showState_tidy _ hshows, hdisplays, fun _ => ?_, fun hname => ?_⟩
        · rw [hsession]
          exact h.tidy.client hlive.named
        · exact absurd hname (by rw [hsession]; exact hlive.named)
    · exact hfail

theorem Live.send_live (hlive : context.Live) (h : context.Sound config uuid era others)
    (payload : Payload) (hasks : Asks context.session payload)
    (hname : (context.send config outside payload).2.session.sessionId ≠ "") :
    (context.send config outside payload).2.Live := by
  have hcases := hlive.request_cases outside h payload (hlive.welcome h hasks.2)
  unfold Context.send at *
  dsimp only at hcases hname ⊢
  generalize context.request config outside payload = after at hcases hname ⊢
  obtain ⟨answer, asked⟩ := after
  obtain ⟨-, hsession, hcases⟩ := hcases
  dsimp only at *
  rcases hcases with ⟨rfl, -⟩ | ⟨services, held, answer, -, -, rfl, -, -, hgeneration, -⟩
  · exact absurd rfl hname
  · split at hname
    · split at hname
      · refine ⟨hname, ?_⟩
        rw [hgeneration, ← hlive.generation]
        simp [hsession]
      · exact absurd rfl hname
    · exact absurd rfl hname

end Context

end BeanKey.Macos
