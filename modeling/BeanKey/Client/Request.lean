import BeanKey.Client.Framing
import BeanKey.Daemon.Serve

/-! A client's connection to the daemon, byte by byte: what `request` writes arrives in pieces of
any size, is served, and its answer is read back, while either end may give up at any time. -/
namespace BeanKey.Client
open Packing Daemon Engine

abbrev Message := Daemon.Envelope Protocol.Payload

inductive Caller where
  | idle
  /-- A request is under way, with the bytes that are left to write. -/
  | requesting (request : Message) (unsent : Bytes)
  | disconnected

/-- The client, its connection's end at the daemon, and the bytes between them. -/
structure Line where
  caller : Caller := .idle
  /-- The bytes on their way to the daemon. -/
  sent : Bytes := []
  connection : Connection := {}
  /-- How many of the bytes of the daemon the client has read. -/
  read : Nat := 0
  /-- The requests that got an answer, with what `request` returned. -/
  replies : List (Message × Message) := []

def Line.unread (line : Line) : Bytes := line.connection.writer.drop line.read

/-- What a client asks: its version is the daemon's, and its numbers begin with 1. -/
structure Asks (request : Message) : Prop where
  version : request.protocolVersion = protocolVersion
  payload : request.payload.isSome
  requestId : request.requestId ≠ 0

def stalledEnvelope (message : String) : Message where
  protocolVersion := protocolVersion
  requestId := 0
  sessionId := ""
  payload := some (.protocolError .invalidPayload message)

section
variable (config : EngineConfig) (prost : Prost Protocol.Payload)

/-- The end of `request`, once everything is written: the response, and the stream behind it. -/
def receive (request : Message) (stream : Bytes) : Option (Message × Bytes) :=
  match readResponse stream with
  | .error _ => none
  | .ok (payload, stream) =>
    match prost.decode payload with
    | .error _ => none
    | .ok response =>
      if response.protocolVersion = request.protocolVersion ∧
          response.requestId = request.requestId ∧ response.sessionId = request.sessionId then
        some (response, stream)
      else none

/-- The two ends and the bytes between them take turns. Where anything fails, the client disconnects
or the daemon stops. -/
inductive Line.Step : Line → Line → Prop
  | request {line : Line} {request : Message} {bytes : Bytes} : line.caller = .idle →
      Asks request → writeRequest (prost.encode request) = some bytes →
      Step line { line with caller := .requesting request bytes }
  | write {line : Line} {request : Message} {unsent : Bytes} (count : Nat) :
      line.caller = .requesting request unsent →
      Step line
        { line with
          caller := .requesting request (unsent.drop count)
          sent := line.sent ++ unsent.take count }
  | arrive {line : Line} (count : Nat) :
      Step line
        { line with
          sent := line.sent.drop count
          connection.reader := line.connection.reader ++ line.sent.take count }
  | serve {line : Line} (services : Services) : line.connection.serving = true →
      Step line { line with connection := serve config prost services line.connection }
  /-- The rest of a request does not come in time. -/
  | stall {line : Line} {message : String} {writer : Bytes} : line.connection.serving = true →
      writeEnvelope prost line.connection.writer (stalledEnvelope message) = .ok writer →
      Step line { line with connection.writer := writer, connection.serving := false }
  | stop {line : Line} : Step line { line with connection.serving := false }
  | respond {line : Line} {request response : Message} {rest : Bytes} :
      line.caller = .requesting request [] →
      receive prost request line.unread = some (response, rest) →
      Step line
        { line with
          caller := .idle
          read := line.connection.writer.length - rest.length
          replies := line.replies ++ [(request, response)] }
  | disconnect {line : Line} : Step line { line with caller := .disconnected }

def Line.Run : Line → Prop := Relation.ReflTransGen (Line.Step config prost) {}

/-- The replies are the engine's answers to the requests, each handled once and in this order, and
it is left with these sessions. -/
inductive Answered : List (Message × Message) → Sessions → Prop
  | nil : Answered [] Sessions.fresh
  | snoc {replies : List (Message × Message)} {sessions : Sessions} (services : Services)
      (request : Message) : Answered replies sessions →
      Answered
        (replies ++ [(request,
          responseEnvelope (handle config services sessions (engineRequest request)).1)])
        (handle config services sessions (engineRequest request)).2

end

/-! ### What the client reads -/

section
variable {config : EngineConfig} {prost : Prost Protocol.Payload} {request response : Message}

theorem writeRequest_frame (hsize : (prost.encode request).length ≤ maximumMessageSize) :
    writeRequest (prost.encode request) = some (frame prost request) := by
  replace hsize : (prost.encode request).length ≤ kMaximumMessageSize := hsize
  have hcount := toNat_length hsize
  have hlength : encodeLength (UInt64.ofNat (prost.encode request).length) =
      Varint.encode (prost.encode request).length := by
    rw [encodeLength_eq_writeVarint (by rwa [hcount]), writeVarint_eq, hcount, List.nil_append]
  rw [writeRequest, if_neg (Nat.not_lt.mpr hsize), hlength, frame]

theorem size_of_writeRequest {bytes : Bytes}
    (h : writeRequest (prost.encode request) = some bytes) :
    (prost.encode request).length ≤ maximumMessageSize := by
  unfold writeRequest at h
  split at h
  · cases h
  · next hsize => exact Nat.not_lt.mp hsize

theorem receive_nil : receive prost request [] = none := rfl

theorem receive_frame (request : Message) (hvalid : Valid prost response)
    (hinverse : prost.decode (prost.encode response) = .ok response) (rest : Bytes) :
    receive prost request (frame prost response ++ rest) =
      if response.protocolVersion = request.protocolVersion ∧
          response.requestId = request.requestId ∧ response.sessionId = request.sessionId then
        some (response, rest)
      else none := by
  rw [receive, frame, readResponse_frame hvalid.size]
  simp [hinverse]

/-- What a daemon that has stopped may leave on the stream: an error that names no request. -/
def Leftover (prost : Prost Protocol.Payload) (serving : Bool) (rest : Bytes) : Prop :=
  rest = [] ∨ serving = false ∧
    ∃ error : Message, error.requestId = 0 ∧ Valid prost error ∧ rest = frame prost error

/-- The two ends are of one mind, with nothing between them. -/
structure Line.Settled (config : EngineConfig) (prost : Prost Protocol.Payload)
    (line : Line) : Prop where
  sent : line.sent = []
  reader : line.connection.reader = []
  answered : Answered config line.replies line.connection.sessions
  leftover : Leftover prost line.connection.serving line.unread

/-- The request, or what of it the daemon has not read, is on its way. -/
structure Line.Pending (config : EngineConfig) (prost : Prost Protocol.Payload) (line : Line)
    (request : Message) (unsent : Bytes) : Prop where
  asks : Asks request
  size : (prost.encode request).length ≤ maximumMessageSize
  bytes : line.connection.reader ++ line.sent ++ unsent = frame prost request
  answered : Answered config line.replies line.connection.sessions
  leftover : Leftover prost line.connection.serving line.unread

structure Line.Handled (config : EngineConfig) (prost : Prost Protocol.Payload) (line : Line)
    (request : Message) (services : Services) (before : Sessions) : Prop where
  asks : Asks request
  sent : line.sent = []
  reader : line.connection.reader = []
  answered : Answered config line.replies before
  sessions : line.connection.sessions = (handle config services before (engineRequest request)).2
  unread :
    let answer := responseEnvelope (handle config services before (engineRequest request)).1
    (∃ rest, Leftover prost line.connection.serving rest ∧ Valid prost answer ∧
      line.unread = frame prost answer ++ rest) ∨
    line.connection.serving = false ∧ Leftover prost false line.unread

inductive Line.Stands (config : EngineConfig) (prost : Prost Protocol.Payload) (line : Line) : Prop
  | settled : line.caller = .idle → line.Settled config prost → Stands config prost line
  | pending {request : Message} {unsent : Bytes} : line.caller = .requesting request unsent →
      line.Pending config prost request unsent → Stands config prost line
  | handled {request : Message} {services : Services} {before : Sessions} :
      line.caller = .requesting request [] →
      line.Handled config prost request services before → Stands config prost line
  | disconnected {sessions : Sessions} : line.caller = .disconnected →
      Answered config line.replies sessions → Stands config prost line

variable {line after : Line}

theorem Leftover.stopped {serving : Bool} {rest : Bytes} (h : Leftover prost serving rest) :
    Leftover prost false rest :=
  h.imp_right fun hrest => ⟨rfl, hrest.2⟩

theorem Leftover.serving {rest : Bytes} (h : Leftover prost true rest) : rest = [] := by
  simpa [Leftover] using h

/-- No request takes it for its answer. -/
theorem Leftover.receive {serving : Bool} {rest : Bytes} (h : Leftover prost serving rest)
    (hinverse : ∀ envelope, Valid prost envelope →
      prost.decode (prost.encode envelope) = .ok envelope)
    (hasks : Asks request) : receive prost request rest = none := by
  obtain rfl | ⟨-, error, herror, hvalid, rfl⟩ := h
  · exact receive_nil
  · have hreceive := receive_frame request hvalid (hinverse error hvalid) []
    rw [List.append_nil] at hreceive
    rw [hreceive, if_neg]
    intro hsame
    exact hasks.requestId (hsame.2.1.symm.trans herror)

theorem Answered.reachable {replies : List (Message × Message)} {sessions : Sessions}
    (h : Answered config replies sessions) : Reachable config sessions := by
  induction h with
  | nil => exact .fresh
  | snoc services request _ ih => exact .handle services _ ih trivial

/-- A round over bytes that are not a whole frame ends the connection. -/
theorem serve_cut {connection : Connection} {services : Services}
    (h : readEnvelope prost connection.reader = .error (.io .unexpectedEof)) :
    serve config prost services connection = { connection with serving := false } := by
  rw [serve, h]

theorem readEnvelope_nil : readEnvelope prost [] = .error (.io .unexpectedEof) := rfl

theorem serve_writer_le (services : Services) (connection : Connection) :
    connection.writer.length ≤ (serve config prost services connection).writer.length := by
  cases hread : readEnvelope prost connection.reader with
  | ok found =>
    rw [serve_request hread]
    dsimp only
    split <;> simp
  | error error =>
    rw [serve, hread]
    split
    · exact Nat.le_refl _
    · split
      · next hwrite =>
        have hvalid := valid_of_writeEnvelope hwrite
        rw [writeEnvelope_valid hvalid] at hwrite
        cases hwrite
        simp
      · exact Nat.le_refl _
    · next hfound => cases hfound

theorem Line.unread_append (hread : line.read ≤ line.connection.writer.length) (more : Bytes) :
    (line.connection.writer ++ more).drop line.read = line.unread ++ more := by
  rw [List.drop_append_of_le_length hread, Line.unread]

/-- What the client has read was written, and a request is somewhere on its way. -/
structure Line.Sound (config : EngineConfig) (prost : Prost Protocol.Payload)
    (line : Line) : Prop where
  read : line.read ≤ line.connection.writer.length
  stands : line.Stands config prost

namespace Line.Sound

theorem start : Line.Sound config prost {} where
  read := Nat.le_refl _
  stands := .settled rfl ⟨rfl, rfl, .nil, .inl rfl⟩

theorem asks (h : line.Sound config prost) {bytes : Bytes} (hcaller : line.caller = .idle)
    (hasks : Asks request) (hwrite : writeRequest (prost.encode request) = some bytes) :
    Line.Sound config prost { line with caller := .requesting request bytes } := by
  refine ⟨h.read, ?_⟩
  have hsize := size_of_writeRequest hwrite
  obtain rfl : frame prost request = bytes := by simpa [writeRequest_frame hsize] using hwrite
  cases h.stands with
  | settled _ hsettled =>
    exact .pending rfl ⟨hasks, hsize, by simp [hsettled.sent, hsettled.reader], hsettled.answered,
      hsettled.leftover⟩
  | pending hother => simp [hcaller] at hother
  | handled hother => simp [hcaller] at hother
  | disconnected hother => simp [hcaller] at hother

theorem write (h : line.Sound config prost) {unsent : Bytes} (count : Nat)
    (hcaller : line.caller = .requesting request unsent) :
    Line.Sound config prost
      { line with
        caller := .requesting request (unsent.drop count)
        sent := line.sent ++ unsent.take count } := by
  refine ⟨h.read, ?_⟩
  cases h.stands with
  | settled hother => simp [hcaller] at hother
  | pending hother hpending =>
    cases hcaller.symm.trans hother
    refine .pending rfl ⟨hpending.asks, hpending.size, ?_, hpending.answered, hpending.leftover⟩
    simpa using hpending.bytes
  | handled hother hhandled =>
    cases hcaller.symm.trans hother
    refine .handled (by simp) ⟨hhandled.asks, ?_, hhandled.reader, hhandled.answered,
      hhandled.sessions, hhandled.unread⟩
    simpa using hhandled.sent
  | disconnected hother => simp [hcaller] at hother

theorem arrive (h : line.Sound config prost) (count : Nat) :
    Line.Sound config prost
      { line with
        sent := line.sent.drop count
        connection.reader := line.connection.reader ++ line.sent.take count } := by
  refine ⟨h.read, ?_⟩
  cases h.stands with
  | settled hcaller hsettled =>
    exact .settled hcaller ⟨by simp [hsettled.sent], by simp [hsettled.sent, hsettled.reader],
      hsettled.answered, hsettled.leftover⟩
  | @pending request unsent hcaller hpending =>
    refine .pending hcaller ⟨hpending.asks, hpending.size, ?_, hpending.answered, hpending.leftover⟩
    calc (line.connection.reader ++ line.sent.take count) ++ line.sent.drop count ++ unsent
        = line.connection.reader ++ (line.sent.take count ++ line.sent.drop count) ++ unsent := by
          simp only [List.append_assoc]
      _ = frame prost request := by rw [List.take_append_drop, hpending.bytes]
  | handled hcaller hhandled =>
    exact .handled hcaller ⟨hhandled.asks, by simp [hhandled.sent],
      by simp [hhandled.sent, hhandled.reader], hhandled.answered, hhandled.sessions,
        hhandled.unread⟩
  | disconnected hcaller hanswered => exact .disconnected hcaller hanswered

theorem stop (h : line.Sound config prost) :
    Line.Sound config prost { line with connection.serving := false } := by
  refine ⟨h.read, ?_⟩
  cases h.stands with
  | settled hcaller hsettled =>
    exact .settled hcaller ⟨hsettled.sent, hsettled.reader, hsettled.answered,
      hsettled.leftover.stopped⟩
  | pending hcaller hpending =>
    exact .pending hcaller ⟨hpending.asks, hpending.size, hpending.bytes, hpending.answered,
      hpending.leftover.stopped⟩
  | handled hcaller hhandled =>
    refine .handled hcaller ⟨hhandled.asks, hhandled.sent, hhandled.reader, hhandled.answered,
      hhandled.sessions, ?_⟩
    refine hhandled.unread.imp ?_ fun hnone => ⟨rfl, hnone.2⟩
    rintro ⟨rest, hrest, hanswer⟩
    exact ⟨rest, hrest.stopped, hanswer⟩
  | disconnected hcaller hanswered => exact .disconnected hcaller hanswered

/-- The error of a stalled read is the last that the daemon writes. -/
theorem stall (h : line.Sound config prost) {message : String} {writer : Bytes}
    (hserving : line.connection.serving = true)
    (hwrite : writeEnvelope prost line.connection.writer (stalledEnvelope message) = .ok writer) :
    Line.Sound config prost
      { line with connection.writer := writer, connection.serving := false } := by
  have hvalid := valid_of_writeEnvelope hwrite
  rw [writeEnvelope_valid hvalid] at hwrite
  obtain rfl : line.connection.writer ++ frame prost (stalledEnvelope message) = writer := by
    simpa using hwrite
  refine ⟨h.read.trans (by simp), ?_⟩
  have hunread := Line.unread_append h.read (frame prost (stalledEnvelope message))
  have hleft : Leftover prost false (frame prost (stalledEnvelope message)) :=
    .inr ⟨rfl, _, rfl, hvalid, rfl⟩
  have hnew {rest : Bytes} (hrest : Leftover prost line.connection.serving rest) :
      Leftover prost false (rest ++ frame prost (stalledEnvelope message)) := by
    rw [hserving] at hrest
    rw [hrest.serving, List.nil_append]
    exact hleft
  cases h.stands with
  | settled hcaller hsettled =>
    refine .settled hcaller ⟨hsettled.sent, hsettled.reader, hsettled.answered, ?_⟩
    simpa only [Line.unread, hunread] using hnew hsettled.leftover
  | pending hcaller hpending =>
    refine .pending hcaller ⟨hpending.asks, hpending.size, hpending.bytes, hpending.answered, ?_⟩
    simpa only [Line.unread, hunread] using hnew hpending.leftover
  | handled hcaller hhandled =>
    refine .handled hcaller ⟨hhandled.asks, hhandled.sent, hhandled.reader, hhandled.answered,
      hhandled.sessions, ?_⟩
    rcases hhandled.unread with ⟨rest, hrest, hanswer, hbytes⟩ | ⟨hstopped, -⟩
    · refine .inl ⟨rest ++ frame prost (stalledEnvelope message), hnew hrest, hanswer, ?_⟩
      rw [← List.append_assoc, ← hbytes]
      exact hunread
    · simp [hserving] at hstopped
  | disconnected hcaller hanswered => exact .disconnected hcaller hanswered

theorem serve (h : line.Sound config prost)
    (hinverse : ∀ envelope, Valid prost envelope →
      prost.decode (prost.encode envelope) = .ok envelope)
    (services : Services) (hserving : line.connection.serving = true) :
    Line.Sound config prost
      { line with connection := Daemon.serve config prost services line.connection } := by
  have hlast (hcut : readEnvelope prost line.connection.reader = .error (.io .unexpectedEof)) :
      Line.Sound config prost
        { line with connection := Daemon.serve config prost services line.connection } := by
    rw [serve_cut hcut]
    exact h.stop
  have hempty (hreader : line.connection.reader = []) :
      readEnvelope prost line.connection.reader = .error (.io .unexpectedEof) := by
    rw [hreader]
    exact readEnvelope_nil
  cases h.stands with
  | settled _ hsettled => exact hlast (hempty hsettled.reader)
  | handled _ hhandled => exact hlast (hempty hhandled.reader)
  | disconnected hcaller hanswered =>
    refine ⟨?_, .disconnected hcaller hanswered⟩
    exact h.read.trans (serve_writer_le _ _)
  | @pending request unsent hcaller hpending =>
    have hvalid : Valid prost request :=
      ⟨hpending.asks.version, hpending.asks.payload, hpending.size⟩
    by_cases hwhole : line.connection.reader = frame prost request
    · have hbytes := hpending.bytes
      rw [hwhole, List.append_assoc, List.append_right_eq_self] at hbytes
      obtain ⟨hsent, rfl⟩ := List.append_eq_nil_iff.mp hbytes
      have hreads : readEnvelope prost line.connection.reader = .ok (request, []) := by
        rw [hwhole, ← List.append_nil (frame prost request)]
        exact readEnvelope_frame hvalid (hinverse _ hvalid) []
      have hnothing : line.unread = [] := by
        have hleftover := hpending.leftover
        rw [hserving] at hleftover
        exact hleftover.serving
      rw [serve_request hreads]
      dsimp only
      split
      · next hfits =>
        refine ⟨h.read.trans (by simp), .handled hcaller ⟨hpending.asks, hsent, rfl,
          hpending.answered, rfl, .inl ⟨[], .inl rfl, ⟨rfl, rfl, hfits⟩, ?_⟩⟩⟩
        have hunread := Line.unread_append h.read (frame prost (responseEnvelope
          (handle config services line.connection.sessions (engineRequest request)).1))
        rw [hnothing, List.nil_append] at hunread
        rw [List.append_nil]
        exact hunread
      · exact ⟨h.read, .handled hcaller ⟨hpending.asks, hsent, rfl, hpending.answered, rfl,
          .inr ⟨rfl, .inl hnothing⟩⟩⟩
    · refine hlast (readEnvelope_cut hvalid ?_ hwhole)
      exact ⟨line.sent ++ unsent, by rw [← List.append_assoc, hpending.bytes]⟩

theorem respond (h : line.Sound config prost)
    (hinverse : ∀ envelope, Valid prost envelope →
      prost.decode (prost.encode envelope) = .ok envelope)
    {rest : Bytes} (hcaller : line.caller = .requesting request [])
    (hreceive : receive prost request line.unread = some (response, rest)) :
    Line.Sound config prost
      { line with
        caller := .idle
        read := line.connection.writer.length - rest.length
        replies := line.replies ++ [(request, response)] } := by
  refine ⟨Nat.sub_le _ _, ?_⟩
  cases h.stands with
  | settled hother => simp [hcaller] at hother
  | disconnected hother => simp [hcaller] at hother
  | pending hother hpending =>
    cases hcaller.symm.trans hother
    rw [hpending.leftover.receive hinverse hpending.asks] at hreceive
    cases hreceive
  | @handled _ services before hother hhandled =>
    cases hcaller.symm.trans hother
    rcases hhandled.unread with ⟨left, hleft, hvalid, hbytes⟩ | ⟨-, hleft⟩
    · have hread := receive_frame request hvalid (hinverse _ hvalid) left
      rw [← hbytes, hreceive] at hread
      split at hread
      · cases hread
        refine .settled rfl ⟨hhandled.sent, hhandled.reader, ?_, ?_⟩
        · rw [hhandled.sessions]
          exact .snoc services request hhandled.answered
        · have hsuffix : line.unread <:+ line.connection.writer := List.drop_suffix _ _
          rw [hbytes] at hsuffix
          replace hsuffix := (List.suffix_append _ _).trans hsuffix
          have hunread : line.connection.writer.drop (line.connection.writer.length - rest.length) =
              rest := (List.suffix_iff_eq_drop.mp hsuffix).symm
          simp only [Line.unread, hunread]
          exact hleft
      · cases hread
    · rw [hleft.receive hinverse hhandled.asks] at hreceive
      cases hreceive

theorem disconnect (h : line.Sound config prost) :
    Line.Sound config prost { line with caller := .disconnected } := by
  refine ⟨h.read, ?_⟩
  cases h.stands with
  | settled _ hsettled => exact .disconnected rfl hsettled.answered
  | pending _ hpending => exact .disconnected rfl hpending.answered
  | handled _ hhandled => exact .disconnected rfl hhandled.answered
  | disconnected _ hanswered => exact .disconnected rfl hanswered

theorem step (h : line.Sound config prost)
    (hinverse : ∀ envelope, Valid prost envelope →
      prost.decode (prost.encode envelope) = .ok envelope)
    (hstep : Line.Step config prost line after) : after.Sound config prost := by
  cases hstep with
  | request hcaller hasks hwrite => exact h.asks hcaller hasks hwrite
  | write count hcaller => exact h.write count hcaller
  | arrive count => exact h.arrive count
  | serve services hserving => exact h.serve hinverse services hserving
  | stall hserving hwrite => exact h.stall hserving hwrite
  | stop => exact h.stop
  | respond hcaller hreceive => exact h.respond hinverse hcaller hreceive
  | disconnect => exact h.disconnect

end Line.Sound

theorem Line.Run.sound (h : Line.Run config prost line)
    (hinverse : ∀ envelope, Valid prost envelope →
      prost.decode (prost.encode envelope) = .ok envelope) : line.Sound config prost := by
  induction h with
  | refl => exact .start
  | tail _ hstep ih => exact ih.step hinverse hstep

/-- An idle client has nothing on its way. -/
theorem Line.Run.settled (h : Line.Run config prost line)
    (hinverse : ∀ envelope, Valid prost envelope →
      prost.decode (prost.encode envelope) = .ok envelope)
    (hidle : line.caller = .idle) : line.Settled config prost := by
  cases (h.sound hinverse).stands with
  | settled _ hsettled => exact hsettled
  | pending hcaller => simp [hidle] at hcaller
  | handled hcaller => simp [hidle] at hcaller
  | disconnected hcaller => simp [hidle] at hcaller

/-- An idle client whose daemon serves gets its answer, if the answer fits and nobody gives up. -/
theorem Line.Run.returns (h : Line.Run config prost line)
    (hinverse : ∀ envelope, Valid prost envelope →
      prost.decode (prost.encode envelope) = .ok envelope)
    (hidle : line.caller = .idle) (hserving : line.connection.serving = true)
    (hasks : Asks request) (hsize : (prost.encode request).length ≤ maximumMessageSize)
    (services : Services)
    (hfits : (prost.encode (responseEnvelope
      (handle config services line.connection.sessions (engineRequest request)).1)).length ≤
        maximumMessageSize) :
    ∃ after, Relation.ReflTransGen (Line.Step config prost) line after ∧ after.caller = .idle ∧
      after.connection.serving = true ∧
      after.replies = line.replies ++ [(request, responseEnvelope
        (handle config services line.connection.sessions (engineRequest request)).1)] := by
  have hsettled := h.settled hinverse hidle
  have hread := (h.sound hinverse).read
  have hunread : line.unread = [] := by
    have hleftover := hsettled.leftover
    rw [hserving] at hleftover
    exact hleftover.serving
  obtain ⟨caller, sent, ⟨sessions, reader, writer, serving⟩, read, replies⟩ := line
  obtain rfl : sent = [] := hsettled.sent
  obtain rfl : reader = [] := hsettled.reader
  subst hidle hserving
  generalize hanswer : responseEnvelope
    (handle config services sessions (engineRequest request)).1 =
    answer at hfits ⊢
  have hvalid : Valid prost answer := ⟨hanswer ▸ rfl, hanswer ▸ rfl, hfits⟩
  have hrequest : Valid prost request := ⟨hasks.version, hasks.payload, hsize⟩
  have hreads : readEnvelope prost (frame prost request) = .ok (request, []) := by
    have hwhole := readEnvelope_frame hrequest (hinverse _ hrequest) []
    rwa [List.append_nil] at hwhole
  -- The request is written and arrives in one piece.
  have hasked : Line.Step config prost ⟨.idle, [], ⟨sessions, [], writer, true⟩, read, replies⟩
      ⟨.requesting request (frame prost request), [], ⟨sessions, [], writer, true⟩,
        read, replies⟩ :=
    .request rfl hasks (writeRequest_frame hsize)
  have hwritten : Line.Step config prost
      ⟨.requesting request (frame prost request), [], ⟨sessions, [], writer, true⟩, read, replies⟩
      ⟨.requesting request [], frame prost request, ⟨sessions, [], writer, true⟩, read,
        replies⟩ := by
    simpa using @Line.Step.write config prost ⟨.requesting request (frame prost request), [],
      ⟨sessions, [], writer, true⟩, read, replies⟩ _ _ (frame prost request).length rfl
  have harrived : Line.Step config prost
      ⟨.requesting request [], frame prost request, ⟨sessions, [], writer, true⟩, read, replies⟩
      ⟨.requesting request [], [], ⟨sessions, frame prost request, writer, true⟩, read,
        replies⟩ := by
    simpa using @Line.Step.arrive config prost ⟨.requesting request [], frame prost request,
      ⟨sessions, [], writer, true⟩, read, replies⟩ (frame prost request).length
  have hserved : Line.Step config prost
      ⟨.requesting request [], [], ⟨sessions, frame prost request, writer, true⟩, read, replies⟩
      ⟨.requesting request [], [],
        ⟨(handle config services sessions (engineRequest request)).2, [],
          writer ++ frame prost answer, true⟩, read, replies⟩ := by
    have hstep := @Line.Step.serve config prost ⟨.requesting request [], [],
      ⟨sessions, frame prost request, writer, true⟩, read, replies⟩ services rfl
    rw [serve_request hreads] at hstep
    simpa [hanswer, hfits] using hstep
  have hreceived : receive prost request ((writer ++ frame prost answer).drop read) =
      some (answer, []) := by
    have hbytes := Line.unread_append hread (frame prost answer)
    rw [hunread, List.nil_append] at hbytes
    have hreceive := receive_frame request hvalid (hinverse _ hvalid) []
    rw [List.append_nil, if_pos] at hreceive
    · exact (congrArg _ hbytes).trans hreceive
    · exact hanswer ▸ ⟨hasks.version.symm, UInt64.ofNat_toNat, rfl⟩
  refine ⟨_, (((Relation.ReflTransGen.single hasked).tail hwritten).tail harrived).tail hserved
    |>.tail (.respond rfl hreceived), rfl, rfl, rfl⟩

theorem Line.Run.answered (h : Line.Run config prost line)
    (hinverse : ∀ envelope, Valid prost envelope →
      prost.decode (prost.encode envelope) = .ok envelope) :
    ∃ sessions, Answered config line.replies sessions := by
  cases (h.sound hinverse).stands with
  | settled _ hsettled => exact ⟨_, hsettled.answered⟩
  | pending _ hpending => exact ⟨_, hpending.answered⟩
  | handled _ hhandled => exact ⟨_, hhandled.answered⟩
  | disconnected _ hanswered => exact ⟨_, hanswered⟩

/-- Whatever pieces the bytes come in, and whoever gives up when: all that `request` has ever
returned over a connection are the engine's answers to its requests, each handled once and in this
order. An idle client and the daemon agree on the sessions, with nothing on its way, and the next
request gets the engine's answer if it fits and nobody gives up. -/
theorem replies_answered (h : Line.Run config prost line)
    (hinverse : ∀ envelope, Valid prost envelope →
      prost.decode (prost.encode envelope) = .ok envelope) :
    (∃ sessions, Answered config line.replies sessions ∧ Reachable config sessions) ∧
    (line.caller = .idle → Answered config line.replies line.connection.sessions ∧
      line.sent = [] ∧ line.connection.reader = [] ∧
      (line.connection.serving = true → line.unread = [] ∧
        ∀ (request : Message) (services : Services),
          let answer := responseEnvelope
            (handle config services line.connection.sessions (engineRequest request)).1
          Asks request → (prost.encode request).length ≤ maximumMessageSize →
          (prost.encode answer).length ≤ maximumMessageSize →
          ∃ after, Relation.ReflTransGen (Line.Step config prost) line after ∧
            after.caller = .idle ∧ after.connection.serving = true ∧
            after.replies = line.replies ++ [(request, answer)])) := by
  refine ⟨?_, fun hidle => ?_⟩
  · obtain ⟨sessions, hanswered⟩ := h.answered hinverse
    exact ⟨sessions, hanswered, hanswered.reachable⟩
  · have hsettled := h.settled hinverse hidle
    refine ⟨hsettled.answered, hsettled.sent, hsettled.reader, fun hserving => ⟨?_, ?_⟩⟩
    · have hleftover := hsettled.leftover
      rw [hserving] at hleftover
      exact hleftover.serving
    · intro request services answer hasks hsize hfits
      exact h.returns hinverse hidle hserving hasks hsize services hfits

end

/-! ### One request and its answer -/

/-- The answer to a reset of a session that is not there. -/
def unknownSession : Message where
  protocolVersion := protocolVersion
  requestId := 1
  sessionId := longId 1
  payload := some (.protocolError .unknownSession "unknown session")

def isKnown (envelope : Message) : Bool :=
  envelope.protocolVersion == protocolVersion && envelope.requestId == 1 &&
    envelope.sessionId == longId 1 && envelope.trace.isEmpty &&
    match envelope.payload with
    | some .resetSession => true
    | some (.protocolError .unknownSession message) => message == "unknown session"
    | _ => false

/-- The encoding of the reset and its answer; anything else counts as too large. -/
def knownProst : Prost Protocol.Payload where
  encode envelope :=
    if isKnown envelope then encodeEnvelope envelope
    else List.replicate (maximumMessageSize + 1) 0
  decode bytes :=
    if bytes = encodeEnvelope (resetOf (longId 1)) then .ok (resetOf (longId 1))
    else if bytes = encodeEnvelope unknownSession then .ok unknownSession
    else .error "invalid wire type"

theorem eq_of_isKnown {envelope : Message} (h : isKnown envelope = true) :
    envelope = resetOf (longId 1) ∨ envelope = unknownSession := by
  obtain ⟨version, requestId, sessionId, payload, trace⟩ := envelope
  simp only [isKnown, Bool.and_eq_true, beq_iff_eq, List.isEmpty_iff] at h
  obtain ⟨⟨⟨⟨rfl, rfl⟩, rfl⟩, rfl⟩, hpayload⟩ := h
  split at hpayload
  · exact .inl rfl
  · rw [beq_iff_eq] at hpayload
    subst hpayload
    exact .inr rfl
  · cases hpayload

theorem length_known : (encodeEnvelope (resetOf (longId 1))).length = 9 ∧
    (encodeEnvelope unknownSession).length = 29 := by
  have hone : (Varint.encode 1).length = 1 := by
    rw [Varint.encode_last (by decide)]
    rfl
  constructor
  · rw [resetOf, length_encodeEnvelope Nat.one_pos, hone, length_reset]
  · rw [unknownSession, length_encodeEnvelope Nat.one_pos, hone, length_unknown]

theorem knownProst_inverse (envelope : Message) (h : Valid knownProst envelope) :
    knownProst.decode (knownProst.encode envelope) = .ok envelope := by
  by_cases hknown : isKnown envelope = true
  · have hlengths := length_known
    simp only [knownProst, hknown, if_true]
    obtain rfl | rfl := eq_of_isKnown hknown
    · simp
    · rw [if_neg, if_pos rfl]
      intro hsame
      rw [hsame] at hlengths
      omega
  · have hsize := h.size
    simp [knownProst, hknown] at hsize

theorem encode_known {envelope : Message} (h : isKnown envelope = true) :
    knownProst.encode envelope = encodeEnvelope envelope := if_pos h

theorem reset_answered : ∃ line : Line, Line.Run plainConfig knownProst line ∧
    line.caller = .idle ∧ line.replies = [(resetOf (longId 1), unknownSession)] := by
  have hreset : isKnown (resetOf (longId 1)) = true := by simp [isKnown, resetOf]
  have hanswer : isKnown unknownSession = true := by simp [isKnown, unknownSession]
  have hasks : Asks (resetOf (longId 1)) := ⟨rfl, rfl, by decide⟩
  have hstart : Line.Run plainConfig knownProst {} := .refl
  obtain ⟨line, hsteps, hidle, -, hreplies⟩ := hstart.returns knownProst_inverse rfl rfl hasks
    (by rw [encode_known hreset, length_known.1]; decide) kanaServices
    (by
      rw [handle_resetOf]
      change (knownProst.encode unknownSession).length ≤ maximumMessageSize
      rw [encode_known hanswer, length_known.2]
      decide)
  exact ⟨line, hstart.trans hsteps, hidle, hreplies⟩

theorem replies_answered_reset : ∃ line : Line, Line.Run plainConfig knownProst line ∧
    line.replies = [(resetOf (longId 1), unknownSession)] ∧
    Answered plainConfig line.replies line.connection.sessions := by
  obtain ⟨line, hrun, hidle, hreplies⟩ := reset_answered
  exact ⟨line, hrun, hreplies, ((replies_answered hrun knownProst_inverse).2 hidle).1⟩

end BeanKey.Client
