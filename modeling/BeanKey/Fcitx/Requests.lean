import BeanKey.Client.Request
import BeanKey.Fcitx.Engine

/-! The addon's calls of `Client::request`, which leave the bytes out, against the bytes. -/
namespace BeanKey.Fcitx
open Engine Daemon Client

section
variable (config : EngineConfig) (outside : Nat → Outside)

def BeanKeyEngine.requests (engine : BeanKeyEngine) :
    List Protocol.Envelope → List (Option Protocol.Envelope) × BeanKeyEngine
  | [] => ([], engine)
  | envelope :: envelopes =>
    let (response, engine) := engine.request config outside envelope
    let (responses, engine) := engine.requests envelopes
    (response :: responses, engine)

end

namespace BeanKeyEngine
variable (config : EngineConfig) {outside other : Nat → Outside}

theorem request_congr {engine : BeanKeyEngine} (envelope : Protocol.Envelope)
    (h : outside engine.time = other engine.time) :
    engine.request config outside envelope = engine.request config other envelope := by
  simp only [request, h]

theorem request_time_le (outside : Nat → Outside) (engine : BeanKeyEngine)
    (envelope : Protocol.Envelope) :
    (engine.request config outside envelope).2.time ≤ engine.time + 1 := by
  unfold request
  split
  · dsimp only
    split
    · split <;> exact Nat.le_refl _
    · exact Nat.le_refl _
  · exact Nat.le_succ _

/-- What the outside does after the requests makes no difference. -/
theorem requests_congr (engine : BeanKeyEngine) (envelopes : List Protocol.Envelope)
    (h : ∀ time < engine.time + envelopes.length, outside time = other time) :
    engine.requests config outside envelopes = engine.requests config other envelopes := by
  induction envelopes generalizing engine with
  | nil => rfl
  | cons envelope envelopes ih =>
    rw [List.length_cons] at h
    have hnow := request_congr config envelope (h engine.time (by omega))
    have hlater := ih (engine.request config other envelope).2 fun time htime => by
      have hle := engine.request_time_le config other envelope
      exact h time (by omega)
    simp only [requests, hnow, hlater]

theorem requests_concat (engine : BeanKeyEngine) (envelopes : List Protocol.Envelope)
    (envelope : Protocol.Envelope) :
    engine.requests config outside (envelopes ++ [envelope]) =
      let before := engine.requests config outside envelopes
      let last := before.2.request config outside envelope
      (before.1 ++ [last.1], last.2) := by
  induction envelopes generalizing engine with
  | nil => rfl
  | cons first envelopes ih => simp only [List.cons_append, requests, ih]

theorem request_answered {engine : BeanKeyEngine} {now : Outside}
    (hconnected : engine.connected = true) (hnow : outside engine.time = now)
    (hreaches : now.reaches = true) (hreturns : now.returns = true) (request : Message) :
    let handled := handle config now.services engine.sessions (engineRequest request)
    let after := engine.request config outside (engineRequest request)
    after.1 = some handled.1 ∧ after.2.sessions = handled.2 ∧ after.2.connected = true ∧
      after.2.time = engine.time + 1 := by
  have hids : (handle config now.services engine.sessions (engineRequest request)).1.requestId =
      (engineRequest request).requestId ∧
      (handle config now.services engine.sessions (engineRequest request)).1.sessionId =
        (engineRequest request).sessionId := ⟨rfl, rfl⟩
  simp only [BeanKeyEngine.request, hconnected, hnow, hreaches, hreturns, hids, if_true, and_self,
    decide_true]

end BeanKeyEngine

/-- What a connection answered is what the addon's calls give for some outside, and they come to the
same sessions. -/
theorem requests_answered {config : EngineConfig} {replies : List (Message × Message)}
    {sessions : Sessions} (h : Answered config replies sessions) (engine : BeanKeyEngine) :
    ∃ outside,
      let after := engine.connect.requests config outside
        (replies.map fun reply => engineRequest reply.1)
      after.1.map (Option.map responseEnvelope) = replies.map (fun reply => some reply.2) ∧
        after.2.sessions = sessions ∧ after.2.connected = true ∧
        after.2.time = engine.time + replies.length := by
  induction h with
  | nil =>
    exact ⟨fun _ => ⟨true, false, true, true, kanaServices, ⟨false, [], 0, 0⟩⟩, rfl, rfl, rfl, rfl⟩
  | @snoc replies sessions services request _ ih =>
    obtain ⟨outside, hreplies, hsessions, hconnected, htime⟩ := ih
    let now : Outside := ⟨true, false, true, true, services, ⟨false, [], 0, 0⟩⟩
    let later := Function.update outside (engine.time + replies.length) now
    have hsame : engine.connect.requests config later
        (replies.map fun reply => engineRequest reply.1) =
          engine.connect.requests config outside
            (replies.map fun reply => engineRequest reply.1) := by
      refine BeanKeyEngine.requests_congr _ _ _ fun time hlt => ?_
      rw [List.length_map] at hlt
      exact Function.update_of_ne (Nat.ne_of_lt hlt) _ _
    have hlater : later (engine.time + replies.length) = now := Function.update_self _ _ _
    refine ⟨later, ?_⟩
    have hlast := BeanKeyEngine.request_answered config hconnected (htime ▸ hlater) rfl rfl request
    rw [htime, hsessions] at hlast
    obtain ⟨hanswer, hafter, hstays, hnext⟩ := hlast
    rw [List.map_append, List.map_singleton, BeanKeyEngine.requests_concat, hsame]
    refine ⟨?_, hafter, hstays, ?_⟩
    · simp [hreplies, hanswer, now]
    · rw [hnext, List.length_append, List.length_singleton, Nat.add_assoc]

/-- The bytes can be left out: whatever a client has been answered over a connection, the addon's
calls answer the same for some outside, and while the client is idle the engine that the calls keep
has the sessions of the daemon. -/
theorem requests_over_line {config : EngineConfig} {prost : Prost Protocol.Payload} {line : Line}
    (h : Line.Run config prost line)
    (hinverse : ∀ envelope, Valid prost envelope →
      prost.decode (prost.encode envelope) = .ok envelope) (engine : BeanKeyEngine) :
    ∃ outside,
      let after := engine.connect.requests config outside
        (line.replies.map fun reply => engineRequest reply.1)
      after.1.map (Option.map responseEnvelope) = line.replies.map (fun reply => some reply.2) ∧
        after.2.connected = true ∧
        (line.caller = .idle → after.2.sessions = line.connection.sessions) := by
  by_cases hidle : line.caller = .idle
  · obtain ⟨outside, hreplies, hsessions, hconnected, -⟩ :=
      requests_answered (h.settled hinverse hidle).answered engine
    exact ⟨outside, hreplies, hconnected, fun _ => hsessions⟩
  · obtain ⟨sessions, hanswered⟩ := h.answered hinverse
    obtain ⟨outside, hreplies, -, hconnected, -⟩ := requests_answered hanswered engine
    exact ⟨outside, hreplies, hconnected, fun hnot => absurd hnot hidle⟩

theorem requests_over_line_reset : ∃ outside,
    ((BeanKeyEngine.connect { runtimeRoot := ['/'], learningDirectory := ['/'] }).requests
      plainConfig
      outside [engineRequest (resetOf (longId 1))]).1.map (Option.map responseEnvelope) =
        [some unknownSession] := by
  obtain ⟨line, hrun, -, hreplies⟩ := reset_answered
  obtain ⟨outside, hanswers, -, -⟩ := requests_over_line hrun knownProst_inverse
    { runtimeRoot := ['/'], learningDirectory := ['/'] }
  rw [hreplies] at hanswers
  exact ⟨outside, hanswers⟩

end BeanKey.Fcitx
