import BeanKey.Daemon.Frame
import BeanKey.Engine.Selection

/-! A connection of the server: requests are read from its stream, the engine handles them, and the
answers are written in frames. -/
namespace BeanKey.Daemon
open Packing Engine

/-! ### The connection -/

def engineRequest (envelope : Envelope Protocol.Payload) : Protocol.Envelope :=
  ⟨envelope.requestId.toNat, envelope.sessionId, envelope.payload⟩

def responseEnvelope (answer : Protocol.Envelope) : Envelope Protocol.Payload where
  protocolVersion := protocolVersion
  requestId := UInt64.ofNat answer.requestId
  sessionId := answer.sessionId
  payload := answer.payload

/-- The text of an error; the one of the stream is the standard library's. -/
def FrameError.display : FrameError → String
  | .io .unexpectedEof => "failed to fill whole buffer"
  | .invalidLength => "invalid varint frame length"
  | .messageTooLarge size => "frame size " ++ toString size ++ " exceeds the 1 MiB limit"
  | .invalidProtobuf error => "invalid protobuf payload: " ++ error
  | .unsupportedVersion version => "unsupported protocol version " ++ toString version
  | .missingPayload => "envelope has no payload"

def FrameError.code : FrameError → Protocol.Code
  | .unsupportedVersion _ => .unsupportedVersion
  | .messageTooLarge _ => .messageTooLarge
  | _ => .invalidPayload

def frameErrorEnvelope (error : FrameError) : Envelope Protocol.Payload where
  protocolVersion := protocolVersion
  requestId := 0
  sessionId := ""
  payload := some (.protocolError error.code error.display)

/-- The engine of a connection, the bytes that have come in, those that were written, and whether
the loop goes on. -/
structure Connection where
  sessions : Sessions := Sessions.fresh
  reader : Bytes := []
  writer : Bytes := []
  serving : Bool := true

section
variable (config : EngineConfig) (prost : Prost Protocol.Payload)

/-- One round of `serve_connection`, where nothing more comes in behind the reader. -/
def serve (services : Services) (connection : Connection) : Connection :=
  match readEnvelope prost connection.reader with
  | .error (.io .unexpectedEof) => { connection with serving := false }
  | .error error =>
    match writeEnvelope prost connection.writer (frameErrorEnvelope error) with
    | .ok writer => { connection with writer, serving := false }
    | .error _ => { connection with serving := false }
  | .ok (request, reader) =>
    let (answer, sessions) := handle config services connection.sessions (engineRequest request)
    match writeEnvelope prost connection.writer (responseEnvelope answer) with
    | .ok writer => { connection with sessions, reader, writer }
    | .error _ => { connection with sessions, reader, serving := false }

/-- The states of a connection: bytes come in at any time, every round has its own answers of the
services, and the loop may stop between rounds. -/
inductive Served : Connection → Prop
  | accepted : Served {}
  | receive {connection : Connection} (bytes : Bytes) : Served connection →
      Served { connection with reader := connection.reader ++ bytes }
  | serve {connection : Connection} (services : Services) : Served connection → connection.serving →
      Served (serve config prost services connection)
  | stop {connection : Connection} : Served connection → Served { connection with serving := false }

end

/-! ### Answers -/

section
variable {config : EngineConfig} {prost : Prost Protocol.Payload}

theorem writeEnvelope_eq {envelope : Envelope Protocol.Payload} (writer : Bytes)
    (hversion : envelope.protocolVersion = protocolVersion) (hpayload : envelope.payload.isSome) :
    writeEnvelope prost writer envelope =
      if (prost.encode envelope).length ≤ maximumMessageSize then
        .ok (writer ++ frame prost envelope)
      else .error (.messageTooLarge (prost.encode envelope).length) := by
  split
  · next hsize => exact writeEnvelope_valid ⟨hversion, hpayload, hsize⟩ writer
  · next hsize =>
    have hsome : envelope.payload.isNone = false := by
      rw [← Option.not_isSome, hpayload]
      rfl
    simp [writeEnvelope, validateEnvelope, hversion, hsome, Nat.not_le.mp hsize, bind, Except.bind,
      throw, throwThe, MonadExceptOf.throw]

def WritesFrames (prost : Prost Protocol.Payload) (writer : Bytes) : Prop :=
  ∃ sent : List (Envelope Protocol.Payload),
    (∀ envelope ∈ sent, Valid prost envelope) ∧ writer = sent.flatMap (frame prost)

theorem WritesFrames.write {writer after : Bytes} (h : WritesFrames prost writer)
    {envelope : Envelope Protocol.Payload} (hversion : envelope.protocolVersion = protocolVersion)
    (hpayload : envelope.payload.isSome)
    (hwrite : writeEnvelope prost writer envelope = .ok after) :
    WritesFrames prost after := by
  obtain ⟨sent, hvalid, rfl⟩ := h
  rw [writeEnvelope_eq _ hversion hpayload] at hwrite
  split at hwrite
  · next hsize =>
    cases hwrite
    refine ⟨sent ++ [envelope], ?_, ?_⟩
    · intro other hin
      rcases List.mem_append.mp hin with hsent | hlast
      · exact hvalid other hsent
      · rw [List.mem_singleton.mp hlast]
        exact ⟨hversion, hpayload, hsize⟩
    · rw [List.flatMap_append, List.flatMap_singleton]
  · cases hwrite

/-- A round on an accepted request: the answer is written whole and the loop goes on, or it is too
large, nothing is written, and the connection ends. -/
theorem serve_request {services : Services} {connection : Connection}
    {request : Envelope Protocol.Payload} {rest : Bytes}
    (hread : readEnvelope prost connection.reader = .ok (request, rest)) :
    serve config prost services connection =
      let (answer, sessions) := handle config services connection.sessions (engineRequest request)
      if (prost.encode (responseEnvelope answer)).length ≤ maximumMessageSize then
        { connection with
          sessions, reader := rest
          writer := connection.writer ++ frame prost (responseEnvelope answer) }
      else { connection with sessions, reader := rest, serving := false } := by
  rw [serve, hread]
  dsimp only
  rw [writeEnvelope_eq connection.writer rfl rfl]
  split
  · next hwrite =>
    split at hwrite
    · next hsize =>
      cases hwrite
      rw [if_pos hsize]
    · cases hwrite
  · next hwrite =>
    split at hwrite
    · cases hwrite
    · next hsize => rw [if_neg hsize]

theorem serve_writes {services : Services} {connection : Connection}
    (h : WritesFrames prost connection.writer) :
    WritesFrames prost (serve config prost services connection).writer := by
  cases hread : readEnvelope prost connection.reader with
  | error error =>
    have hrefused : WritesFrames prost (match writeEnvelope prost connection.writer
        (frameErrorEnvelope error) with
      | .ok writer => { connection with writer, serving := false }
      | .error _ => { connection with serving := false } : Connection).writer := by
      split
      · next hwrite => exact h.write rfl rfl hwrite
      · exact h
    rw [serve, hread]
    split
    · exact h
    · next heq =>
      cases heq
      exact hrefused
    · next heq => cases heq
  | ok found =>
    obtain ⟨request, rest⟩ := found
    rw [serve_request hread]
    dsimp only
    split
    · next hsize =>
      have hwrite := writeEnvelope_valid ⟨rfl, rfl, hsize⟩ connection.writer
      exact h.write rfl rfl hwrite
    · exact h

theorem serve_sessions {services : Services} {connection : Connection}
    (h : Reachable config connection.sessions) :
    Reachable config (serve config prost services connection).sessions := by
  cases hread : readEnvelope prost connection.reader with
  | error error =>
    rw [serve, hread]
    split
    · exact h
    · split
      · exact h
      · exact h
    · next heq => cases heq
  | ok found =>
    obtain ⟨request, rest⟩ := found
    rw [serve_request hread]
    dsimp only
    split
    · exact .handle services _ h trivial
    · exact .handle services _ h trivial

theorem Served.reached {connection : Connection} (h : Served config prost connection) :
    Reachable config connection.sessions ∧ WritesFrames prost connection.writer := by
  induction h with
  | accepted => exact ⟨.fresh, [], by simp, rfl⟩
  | receive bytes _ ih => exact ih
  | serve services _ _ ih => exact ⟨serve_sessions ih.1, serve_writes ih.2⟩
  | stop _ ih => exact ih

end

/-- In every state of a connection the engine's sessions are reachable, and what was written is
whole frames, which are read back in order. A request that comes in is answered with its own
identifiers: the answer is written whole and the loop goes on, exactly when it is within the limit;
a larger one is not written at all and ends the connection. -/
theorem responses_delivered (config : EngineConfig) (prost : Prost Protocol.Payload)
    (connection : Connection) (h : Served config prost connection) :
    Reachable config connection.sessions ∧
      (∃ sent : List (Envelope Protocol.Payload), (∀ envelope ∈ sent, Valid prost envelope) ∧
        connection.writer = sent.flatMap (frame prost) ∧
        ((∀ envelope ∈ sent, prost.decode (prost.encode envelope) = .ok envelope) →
          readEnvelopes prost sent.length connection.writer = .ok (sent, []))) ∧
      ∀ (services : Services) (request : Envelope Protocol.Payload) (rest : Bytes),
        connection.serving → readEnvelope prost connection.reader = .ok (request, rest) →
        let answer := handle config services connection.sessions (engineRequest request)
        let response := responseEnvelope answer.1
        let after := serve config prost services connection
        response.requestId = request.requestId ∧ response.sessionId = request.sessionId ∧
          after.sessions = answer.2 ∧ after.reader = rest ∧
          (after.serving ↔ (prost.encode response).length ≤ maximumMessageSize) ∧
          (after.serving → after.writer = connection.writer ++ frame prost response) ∧
          (¬after.serving → after.writer = connection.writer) := by
  obtain ⟨hreachable, sent, hvalid, hwritten⟩ := h.reached
  refine ⟨hreachable, ⟨sent, hvalid, hwritten, fun hinverse => ?_⟩, ?_⟩
  · have hread := readEnvelopes_frames hvalid hinverse []
    rwa [List.append_nil, ← hwritten] at hread
  · intro services request rest hserving hread
    have hid : UInt64.ofNat request.requestId.toNat = request.requestId := UInt64.ofNat_toNat
    dsimp only
    rw [serve_request hread]
    dsimp only
    refine ⟨hid, rfl, ?_⟩
    split
    · next hsize =>
      exact ⟨rfl, rfl, iff_of_true hserving hsize, fun _ => rfl, fun hnot => absurd hserving hnot⟩
    · next hsize =>
      exact ⟨rfl, rfl, iff_of_false Bool.false_ne_true hsize,
        fun hfalse => absurd hfalse Bool.false_ne_true,
        fun _ => rfl⟩

/-! ### An unknown session -/

def varintField (field value : Nat) : Bytes :=
  if value = 0 then [] else Varint.encode (8 * field) ++ Varint.encode value

def bytesField (field : Nat) (value : Bytes) : Bytes :=
  Varint.encode (8 * field + 2) ++ Varint.encode value.length ++ value

def stringField (field : Nat) (value : String) : Bytes :=
  if value.toList = [] then [] else bytesField field (utf8 value.toList)

def codeNumber : Protocol.Code → Nat
  | .unsupportedVersion => 1
  | .invalidPayload => 2
  | .messageTooLarge => 3
  | .unknownSession => 4
  | .outOfOrderRequest => 5
  | .internal => 6

def payloadField : Protocol.Payload → Bytes
  | .resetSession => bytesField 11 []
  | .protocolError code message =>
    bytesField 21 (varintField 1 (codeNumber code) ++ stringField 2 message)
  | _ => []

def encodeEnvelope (envelope : Envelope Protocol.Payload) : Bytes :=
  varintField 1 envelope.protocolVersion.toNat ++ varintField 2 envelope.requestId.toNat ++
    stringField 3 envelope.sessionId ++ envelope.payload.elim [] payloadField

def resetOf (sessionId : String) : Envelope Protocol.Payload where
  protocolVersion := protocolVersion
  requestId := 1
  sessionId
  payload := some .resetSession

def resettingProst (sessionId : String) : Prost Protocol.Payload where
  encode := encodeEnvelope
  decode bytes :=
    if bytes = encodeEnvelope (resetOf sessionId) then .ok (resetOf sessionId)
    else .error "invalid wire type"

def longId (count : Nat) : String := String.ofList (List.replicate count 'a')

theorem length_utf8_longId (count : Nat) : (utf8 (longId count).toList).length = count := by
  rw [longId, String.toList_ofList]
  induction count with
  | zero => rfl
  | succ count ih =>
    rw [List.replicate_succ, utf8_cons, List.length_append, ih, Nat.add_comm]
    rfl

theorem length_stringField {field : Nat} {value : String} (hne : value.toList ≠ []) :
    (stringField field value).length = (Varint.encode (8 * field + 2)).length +
      (Varint.encode (utf8 value.toList).length).length + (utf8 value.toList).length := by
  rw [stringField, if_neg hne, bytesField, List.length_append, List.length_append]

theorem length_encodeEnvelope {count : Nat} (hpos : 0 < count) (payload : Protocol.Payload) :
    (encodeEnvelope ⟨protocolVersion, 1, longId count, some payload, []⟩).length =
      5 + (Varint.encode count).length + count + (payloadField payload).length := by
  have hne : (longId count).toList ≠ [] := by
    intro hnil
    have hlength := length_utf8_longId count
    rw [hnil] at hlength
    exact absurd hlength hpos.ne
  have hnumber : ∀ field, field < 16 → (varintField field 1).length = 2 := by
    intro field hfield
    rw [varintField, if_neg Nat.one_ne_zero, Varint.encode_last (by omega),
      Varint.encode_last (by decide)]
    rfl
  have htag : (Varint.encode (8 * 3 + 2)).length = 1 := by
    rw [Varint.encode_last (by decide)]
    rfl
  have hversion : protocolVersion.toNat = 1 := rfl
  have hid : (1 : UInt64).toNat = 1 := rfl
  simp only [encodeEnvelope, List.length_append, length_stringField hne,
    length_utf8_longId, hversion,
    hid, hnumber 1 (by decide), hnumber 2 (by decide), htag, Option.elim_some]
  omega

theorem length_reset : (payloadField .resetSession).length = 2 := by
  rw [payloadField, bytesField, List.length_nil, Varint.encode_last (by decide),
    Varint.encode_last (by decide)]
  rfl

theorem handle_resetOf (config : EngineConfig) (services : Services) (sessionId : String) :
    responseEnvelope (handle config services Sessions.fresh (engineRequest (resetOf sessionId))).1 =
      ⟨protocolVersion, 1, sessionId, some (.protocolError .unknownSession "unknown session"),
        []⟩ := rfl

theorem length_unknown :
    (payloadField (.protocolError .unknownSession "unknown session")).length = 22 := by
  have hne : "unknown session".toList ≠ [] := by decide
  have htext : (utf8 "unknown session".toList).length = 15 := by decide +kernel
  have hcode : (varintField 1 (codeNumber .unknownSession)).length = 2 := by
    rw [codeNumber, varintField, if_neg (by decide), Varint.encode_last (by decide),
      Varint.encode_last (by decide)]
    rfl
  have hbody : (varintField 1 (codeNumber .unknownSession) ++
      stringField 2 "unknown session").length = 19 := by
    rw [List.length_append, hcode, length_stringField hne, htext, Varint.encode_last (by decide),
      Varint.encode_last (by decide)]
    rfl
  rw [payloadField, bytesField, List.length_append, List.length_append, hbody,
    Varint.encode_marked (by decide), Varint.encode_last (by decide),
      Varint.encode_last (by decide)]
  rfl

def requesting (sessionId : String) : Connection where
  reader := frame (resettingProst sessionId) (resetOf sessionId)

theorem served_requesting (config : EngineConfig) (sessionId : String) :
    Served config (resettingProst sessionId) (requesting sessionId) := .receive _ .accepted

theorem read_requesting {sessionId : String}
    (hsize : (encodeEnvelope (resetOf sessionId)).length ≤ maximumMessageSize) :
    readEnvelope (resettingProst sessionId) (requesting sessionId).reader =
      .ok (resetOf sessionId, []) := by
  have hread : readEnvelope (resettingProst sessionId)
      (frame (resettingProst sessionId) (resetOf sessionId) ++ []) = .ok (resetOf sessionId, []) :=
    readEnvelope_frame ⟨rfl, rfl, hsize⟩ (if_pos rfl) []
  rwa [List.append_nil] at hread

theorem responses_delivered_short :
    (serve plainConfig (resettingProst (longId 1)) kanaServices (requesting (longId 1))).serving ∧
      (serve plainConfig (resettingProst (longId 1)) kanaServices (requesting (longId 1))).writer =
        frame (resettingProst (longId 1)) ⟨protocolVersion, 1, longId 1,
          some (.protocolError .unknownSession "unknown session"), []⟩ := by
  have hone : (Varint.encode 1).length = 1 := by
    rw [Varint.encode_last (by decide)]
    rfl
  have hrequest : (encodeEnvelope (resetOf (longId 1))).length ≤ maximumMessageSize := by
    rw [resetOf, length_encodeEnvelope Nat.one_pos, hone, length_reset]
    decide
  obtain ⟨-, -, hround⟩ := responses_delivered plainConfig (resettingProst (longId 1))
    (requesting (longId 1)) (served_requesting _ _)
  obtain ⟨-, -, -, -, hserving, hwritten, -⟩ :=
    hround kanaServices _ [] rfl (read_requesting hrequest)
  have hfits := hserving.mpr (by
    change (encodeEnvelope _).length ≤ _
    rw [requesting, handle_resetOf, length_encodeEnvelope Nat.one_pos, hone, length_unknown]
    decide)
  exact ⟨hfits, hwritten hfits⟩

/-- A request as long as a frame may be, whose answer is longer: it names an unknown session. -/
theorem response_too_large :
    let sessionId := longId 1048566
    let connection := requesting sessionId
    let answer := handle plainConfig kanaServices connection.sessions
      (engineRequest (resetOf sessionId))
    Served plainConfig (resettingProst sessionId) connection ∧ connection.serving ∧
      readEnvelope (resettingProst sessionId) connection.reader = .ok (resetOf sessionId, []) ∧
      maximumMessageSize < ((resettingProst sessionId).encode (responseEnvelope answer.1)).length ∧
      ¬(serve plainConfig (resettingProst sessionId) kanaServices connection).serving := by
  have hthree : (Varint.encode 1048566).length = 3 := by
    rw [Varint.encode_marked (by decide), Varint.encode_marked (by decide),
      Varint.encode_last (by decide)]
    rfl
  have hpos : 0 < 1048566 := by decide
  have hrequest : (encodeEnvelope (resetOf (longId 1048566))).length ≤ maximumMessageSize := by
    rw [resetOf, length_encodeEnvelope hpos, hthree, length_reset]
    decide
  have hread := read_requesting hrequest
  have hlong : maximumMessageSize <
      (encodeEnvelope (responseEnvelope (handle plainConfig kanaServices
      Sessions.fresh (engineRequest (resetOf (longId 1048566)))).1)).length := by
    rw [handle_resetOf, length_encodeEnvelope hpos, hthree, length_unknown]
    decide
  refine ⟨served_requesting _ _, rfl, hread, hlong, ?_⟩
  rw [serve_request hread]
  dsimp only
  split
  · next hsize => exact absurd hsize (Nat.not_le.mpr hlong)
  · exact Bool.false_ne_true

end BeanKey.Daemon
