import BeanKey.Library.Lease
import BeanKey.Engine.Welcome
import BeanKey.Fcitx.Engine

/-! The sessions of the input contexts against the sessions that the daemon holds for the addon. -/
namespace BeanKey.Fcitx
open Engine Protocol Leasing

/-! ### What holds of a state -/

namespace BeanKeyState
variable {state : BeanKeyState} {session : SessionState} {response : StateResponse}

structure Agrees (state : BeanKeyState) (session : SessionState) : Prop where
  number : session.lastRequestId < state.nextRequestId
  shown : Shows session state.normalState
  typos : state.typoCandidates ≠ [] → session.typoCorrections = state.typoCandidates
  indices : ∀ index ∈ state.candidateIndices, index < session.displayCandidates.length

/-- The session is held from the generation it was started in. -/
def lease (state : BeanKeyState) : Option (Lease String SessionState) :=
  if state.started then some ⟨2 * state.connectionGeneration, state.sessionId, state.Agrees⟩
  else none

@[simp] theorem lease_dropSession : state.dropSession.lease = none := rfl

theorem lease_clearUi (h : state.started = false) : state.clearUi.lease = none := by
  simp [lease, clearUi, h]

theorem lease_started (h : state.started = true) :
    state.lease = some ⟨2 * state.connectionGeneration, state.sessionId, state.Agrees⟩ :=
  if_pos h

theorem listed_index (h : Shows session response) :
    ∀ index ∈ response.candidates.map Protocol.Candidate.index,
      index < session.displayCandidates.length := by
  intro index hindex
  obtain ⟨shown, hshown, rfl⟩ := List.mem_map.mp hindex
  obtain ⟨place, candidate, hcandidate, -, hplace⟩ := h.listed shown hshown
  have hlt := (List.getElem?_eq_some_iff.mp hcandidate).1
  omega

theorem apply_agrees (hnumber : session.lastRequestId < state.nextRequestId)
    (h : Shows session response) : (state.apply response).Agrees session where
  number := hnumber
  shown := ⟨h.listed, h.selected, h.unselected⟩
  typos := fun hne => absurd rfl hne
  indices := listed_index h

end BeanKeyState

/-! ### What holds of the engine -/

namespace BeanKeyEngine
variable {config : EngineConfig} {engine : BeanKeyEngine}

/-- A connection is an era, and so is the time after it. -/
def link (engine : BeanKeyEngine) : Link String SessionState where
  era := 2 * engine.connectionGeneration + if engine.connected then 0 else 1
  registry := engine.sessions

/-- What the daemon holds is in step and was named by the engine, and every message was welcome. -/
structure Sound (config : EngineConfig) (engine : BeanKeyEngine) : Prop where
  inStep : ∀ sessionId session, engine.sessions sessionId = some session → session.InStep config
  named : ∀ sessionId session, engine.sessions sessionId = some session →
    ∃ number < engine.nextSessionId, sessionId = toString number
  closed : engine.connected = false → engine.sessions = Sessions.fresh
  welcome : ∀ handled ∈ engine.handled, Welcome handled.sessions handled.envelope

theorem toString_injective {first second : Nat} (h : toString first = toString second) :
    first = second := by
  have hrepr : Nat.toDigits 10 first = Nat.toDigits 10 second := by
    simpa [toString, Nat.repr, String.ofList_inj] using h
  have hdigits := congrArg (Nat.ofDigitChars 10 · 0) hrepr
  simpa using hdigits

theorem Sound.free (h : engine.Sound config) :
    engine.sessions (toString engine.nextSessionId) = none := by
  cases hsession : engine.sessions (toString engine.nextSessionId) with
  | none => rfl
  | some session =>
    obtain ⟨number, hlt, hname⟩ := h.named _ session hsession
    have := toString_injective hname
    omega

theorem Sound.fresh (h : engine.Sound config) {after : BeanKeyEngine}
    (hsessions : after.sessions = Sessions.fresh) (hhandled : after.handled = engine.handled) :
    after.Sound config where
  inStep := by simp [hsessions, Sessions.fresh]
  named := by simp [hsessions, Sessions.fresh]
  closed := fun _ => hsessions
  welcome := hhandled ▸ h.welcome

theorem Sound.disconnect (h : engine.Sound config) : engine.disconnect.Sound config :=
  h.fresh rfl rfl

/-- A new connection is a new era. -/
theorem connect_later (engine : BeanKeyEngine) : engine.link.era < engine.connect.link.era := by
  simp only [link, BeanKeyEngine.connect, if_true]
  split <;> omega

/-- A call that closes the connection, or an answer of the daemon to the message. -/
theorem request_cases (config : EngineConfig) (outside : Nat → Outside) (envelope : Envelope)
    (hconnected : engine.connected = true) :
    (∃ handled time, engine.request config outside envelope =
      (none, { engine with connected := false, sessions := Sessions.fresh, handled, time })) ∨
    ∃ services handled time, engine.request config outside envelope =
      (some (handle config services engine.sessions envelope).1,
        { engine with
          sessions := (handle config services engine.sessions envelope).2, handled, time }) := by
  unfold request
  rw [if_pos hconnected]
  dsimp only
  split
  · split
    · exact .inr ⟨_, _, _, rfl⟩
    · exact .inl ⟨_, _, rfl⟩
  · exact .inl ⟨_, _, rfl⟩

theorem Sound.request (h : engine.Sound config) (outside : Nat → Outside) {envelope : Envelope}
    (hwelcome : Welcome engine.sessions envelope) {number : Nat}
    (hnumber : number < engine.nextSessionId) (hname : envelope.sessionId = toString number) :
    (engine.request config outside envelope).2.Sound config := by
  have hhandled (response : Envelope) (delivered : Bool) :
      ∀ handled ∈ engine.handled ++ [⟨engine.sessions, envelope, response, delivered⟩],
        Welcome handled.sessions handled.envelope := by
    simpa [or_imp, forall_and] using ⟨h.welcome, hwelcome⟩
  have hcases (services : Services) (sessionId : String) (session : SessionState)
      (hsession : (handle config services engine.sessions envelope).2 sessionId = some session) :
      session.InStep config ∧ ∃ number < engine.nextSessionId, sessionId = toString number := by
    rw [handle_snd] at hsession
    by_cases hsame : sessionId = envelope.sessionId
    · subst hsame
      rw [Function.update_self] at hsession
      exact ⟨handleMessage_inStep (fun before => h.inStep _ before) hsession, number, hnumber,
        hname⟩
    · rw [Function.update_of_ne hsame] at hsession
      exact ⟨h.inStep _ _ hsession, h.named _ _ hsession⟩
  unfold BeanKeyEngine.request
  split
  · next hconnected =>
    dsimp only
    split
    · split
      · constructor
        · exact fun sessionId session hsession => (hcases _ sessionId session hsession).1
        · exact fun sessionId session hsession => (hcases _ sessionId session hsession).2
        · simp [hconnected]
        · exact hhandled _ _
      · constructor
        · simp [BeanKeyEngine.disconnect, Sessions.fresh]
        · simp [BeanKeyEngine.disconnect, Sessions.fresh]
        · simp [BeanKeyEngine.disconnect]
        · exact hhandled _ _
    · exact h.fresh rfl rfl
  · exact h

theorem ensureConnected_cases (outside : Nat → Outside) (engine : BeanKeyEngine) :
    ∃ preparing time, (engine.ensureConnected outside).2 = { engine with preparing, time } ∨
      (engine.ensureConnected outside).2 = { engine.connect with preparing, time } := by
  unfold ensureConnected
  split
  · exact ⟨engine.preparing, engine.time, .inl rfl⟩
  · split
    · exact ⟨engine.preparing, engine.time, .inl rfl⟩
    · dsimp only
      split
      · exact ⟨engine.preparing, engine.time + 1, .inl rfl⟩
      · split
        · exact ⟨engine.preparing, engine.time + 1, .inr rfl⟩
        · split
          · exact ⟨engine.preparing, engine.time + 1, .inl rfl⟩
          · exact ⟨true, engine.time + 1, .inl rfl⟩

theorem ensureConnected_connected (outside : Nat → Outside) (engine : BeanKeyEngine)
    (h : (engine.ensureConnected outside).1 = true) :
    (engine.ensureConnected outside).2.connected = true := by
  unfold ensureConnected at *
  grind [connect]

end BeanKeyEngine

end BeanKey.Fcitx
