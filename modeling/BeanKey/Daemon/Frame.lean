import BeanKey.Library.Varint

/-! Frames of a stream: an envelope's length as a varint, then its encoding. -/
namespace BeanKey.Daemon
open Packing

def protocolVersion : UInt32 := 1
def maximumMessageSize : Nat := 1024 * 1024

inductive IoError where
  | unexpectedEof
  deriving DecidableEq

inductive FrameError where
  | io (error : IoError)
  | invalidLength
  | messageTooLarge (size : Nat)
  | invalidProtobuf (error : String)
  | unsupportedVersion (version : UInt32)
  | missingPayload
  deriving DecidableEq

structure TraceEvent where
  component : String
  operation : String
  detail : String
  deriving DecidableEq

/-- The envelope of a message; its payload is one of the generated messages. -/
structure Envelope (Payload : Type) where
  protocolVersion : UInt32
  requestId : UInt64
  sessionId : String
  payload : Option Payload
  trace : List TraceEvent := []
  deriving DecidableEq

structure Prost (Payload : Type) where
  encode : Envelope Payload → Bytes
  decode : Bytes → Except String (Envelope Payload)

def readExact (size : Nat) (reader : Bytes) : Except FrameError (Bytes × Bytes) :=
  if reader.length < size then .error (.io .unexpectedEof)
  else .ok (reader.take size, reader.drop size)

def readVarintFrom : List Nat → UInt64 → Bytes → Except FrameError (UInt64 × Bytes)
  | [], _, _ => .error .invalidLength
  | shift :: shifts, value, reader =>
    match reader with
    | [] => .error (.io .unexpectedEof)
    | byte :: reader =>
      if shift = 63 ∧ byte > 1 then .error .invalidLength
      else
        let value := value ||| (byte &&& 0x7f).toUInt64 <<< UInt64.ofNat shift
        if byte &&& 0x80 = 0 then .ok (value, reader) else readVarintFrom shifts value reader

/-- The shifts are 0, 7 and so on up to 63; a length is as wide as a pointer, 64 bits. -/
def readVarint (reader : Bytes) : Except FrameError (UInt64 × Bytes) :=
  readVarintFrom (List.range' 0 10 7) 0 reader

def writeVarint (writer : Bytes) (value : UInt64) : Bytes :=
  let byte := (value &&& 0x7f).toUInt8
  if value >>> 7 = 0 then writer ++ [byte]
  else writeVarint (writer ++ [byte ||| 0x80]) (value >>> 7)
termination_by value.toNat
decreasing_by
  rename_i hrest
  have hne : (value >>> 7).toNat ≠ 0 := fun h => hrest (UInt64.toNat_inj.mp h)
  rw [Varint.toNat_shift] at hne ⊢
  omega

variable {Payload : Type}

def validateEnvelope (envelope : Envelope Payload) : Except FrameError Unit :=
  if envelope.protocolVersion ≠ protocolVersion then
    .error (.unsupportedVersion envelope.protocolVersion)
  else if envelope.payload.isNone then .error .missingPayload
  else .ok ()

section
variable (prost : Prost Payload)

def readEnvelope (reader : Bytes) : Except FrameError (Envelope Payload × Bytes) := do
  let (size, reader) ← readVarint reader
  if size.toNat > maximumMessageSize then throw (.messageTooLarge size.toNat)
  let (payload, reader) ← readExact size.toNat reader
  let envelope ← (prost.decode payload).mapError .invalidProtobuf
  validateEnvelope envelope
  return (envelope, reader)

def writeEnvelope (writer : Bytes) (envelope : Envelope Payload) : Except FrameError Bytes := do
  validateEnvelope envelope
  let size := (prost.encode envelope).length
  if size > maximumMessageSize then throw (.messageTooLarge size)
  return writeVarint writer (UInt64.ofNat size) ++ prost.encode envelope

def readEnvelopes : Nat → Bytes → Except FrameError (List (Envelope Payload) × Bytes)
  | 0, reader => .ok ([], reader)
  | count + 1, reader => do
    let (envelope, reader) ← readEnvelope prost reader
    let (envelopes, reader) ← readEnvelopes count reader
    return (envelope :: envelopes, reader)

def writeEnvelopes (writer : Bytes) : List (Envelope Payload) → Except FrameError Bytes
  | [] => .ok writer
  | envelope :: envelopes => do
    let writer ← writeEnvelope prost writer envelope
    writeEnvelopes writer envelopes

structure Valid (envelope : Envelope Payload) : Prop where
  version : envelope.protocolVersion = protocolVersion
  payload : envelope.payload.isSome
  size : (prost.encode envelope).length ≤ maximumMessageSize

def frame (envelope : Envelope Payload) : Bytes :=
  Varint.encode (prost.encode envelope).length ++ prost.encode envelope

end

/-! ### Lengths -/

theorem writeVarint_eq (writer : Bytes) (value : UInt64) :
    writeVarint writer value = writer ++ Varint.encode value.toNat := by
  induction writer, value using writeVarint.induct with
  | case1 writer value hlast =>
    have hsmall : value.toNat < 128 := by
      have hzero := congrArg UInt64.toNat hlast
      rw [Varint.toNat_shift, UInt64.toNat_zero] at hzero
      omega
    have hbyte : (value &&& 0x7f).toUInt8 = UInt8.ofNat value.toNat := by
      apply UInt8.toNat_inj.mp
      rw [Varint.toNat_low, UInt8.toNat_ofNat']
      omega
    rw [writeVarint, if_pos hlast, Varint.encode_last hsmall, hbyte]
  | case2 writer value byte hmore ih =>
    have hlarge : 128 ≤ value.toNat := by
      have hne : (value >>> 7).toNat ≠ 0 := fun h => hmore (UInt64.toNat_inj.mp h)
      rw [Varint.toNat_shift] at hne
      omega
    have hbyte : (value &&& 0x7f).toUInt8 ||| 0x80 = UInt8.ofNat (value.toNat % 128 + 128) := by
      apply UInt8.toNat_inj.mp
      rw [Varint.toNat_mark (by rw [Varint.toNat_low]; omega), Varint.toNat_low,
        UInt8.toNat_ofNat']
      omega
    rw [writeVarint, if_neg hmore, Varint.encode_marked hlarge, ← Varint.toNat_shift, ← hbyte]
    exact ih.trans (List.append_assoc _ _ _)

/-- The tenth group of a 64-bit number is one bit. -/
theorem tenth_group_le {low high group : Nat} (hfits : low + 2 ^ (7 * group) * high < 2 ^ 64)
    (hgroup : 7 * group = 63) : high ≤ 1 := by
  rw [hgroup] at hfits
  omega

theorem group_le_nine {low high group : Nat} (hfits : low + 2 ^ (7 * group) * high < 2 ^ 64)
    (hpos : group = 0 ∨ 0 < high) (hgroup : group ≤ 10) : group ≤ 9 := by
  by_contra hten
  obtain rfl : group = 10 := by omega
  omega

theorem readVarintFrom_encode (high : Nat) (rest : Bytes) {group : Nat} {acc : UInt64}
    (hgroup : group ≤ 10) (hacc : acc.toNat < 2 ^ (7 * group))
    (hfits : acc.toNat + 2 ^ (7 * group) * high < 2 ^ 64) (hpos : group = 0 ∨ 0 < high) :
    readVarintFrom (List.range' (7 * group) (10 - group) 7) acc (Varint.encode high ++ rest) =
      .ok (UInt64.ofNat (acc.toNat + 2 ^ (7 * group) * high), rest) := by
  induction high using Varint.encode.induct generalizing group acc with
  | case1 high hlast =>
    have hnine := group_le_nine hfits hpos hgroup
    have hleft : 10 - group = (9 - group) + 1 := by omega
    have hbyte : (UInt8.ofNat high).toNat = high := by
      rw [UInt8.toNat_ofNat']
      omega
    have hallowed : ¬ (7 * group = 63 ∧ UInt8.ofNat high > 1) := by
      rintro ⟨hshift, hlarge⟩
      rw [gt_iff_lt, UInt8.lt_iff_toNat_lt, hbyte] at hlarge
      exact absurd hlarge (Nat.not_lt.mpr (tenth_group_le hfits hshift))
    have hlow : (UInt8.ofNat high &&& 0x7f).toUInt64.toNat = high := by
      rw [UInt8.toNat_toUInt64, Varint.toNat_unmark, hbyte, Nat.mod_eq_of_lt hlast]
    have hjoin := Varint.toNat_join rfl hacc hlow (by omega) (by omega)
    rw [hleft, List.range'_succ, Varint.encode_last hlast, List.singleton_append, readVarintFrom,
      if_neg hallowed, if_pos ((Varint.mark_eq_zero_iff _).mpr (by rwa [hbyte])), ← hjoin,
      UInt64.ofNat_toNat]
  | case2 high hmarked ih =>
    have hnine := group_le_nine hfits hpos hgroup
    have hleft : 10 - group = (10 - (group + 1)) + 1 := by omega
    have hstart : 7 * group + 7 = 7 * (group + 1) := by omega
    have hpow : 2 ^ (7 * (group + 1)) = 2 ^ (7 * group) * 128 := by
      rw [Nat.mul_succ, Nat.pow_add]
    have hsplit : 2 ^ (7 * group) * (high % 128) + 2 ^ (7 * (group + 1)) * (high / 128) =
        2 ^ (7 * group) * high := by
      rw [hpow, Nat.mul_assoc, ← Nat.mul_add, Nat.mod_add_div]
    have hbyte : (UInt8.ofNat (high % 128 + 128)).toNat = high % 128 + 128 := by
      rw [UInt8.toNat_ofNat']
      omega
    have hallowed : ¬ (7 * group = 63 ∧ UInt8.ofNat (high % 128 + 128) > 1) := by
      rintro ⟨hshift, -⟩
      have := tenth_group_le hfits hshift
      omega
    have hlow : (UInt8.ofNat (high % 128 + 128) &&& 0x7f).toUInt64.toNat = high % 128 := by
      rw [UInt8.toNat_toUInt64, Varint.toNat_unmark, hbyte]
      omega
    have hjoin := Varint.toNat_join rfl hacc hlow (by omega) (by omega)
    rw [hleft, List.range'_succ, Varint.encode_marked (Nat.not_lt.mp hmarked), List.cons_append,
      readVarintFrom, if_neg hallowed,
      if_neg (mt (Varint.mark_eq_zero_iff _).mp (by rw [hbyte]; omega)), hstart]
    refine (ih (by omega) ?_ ?_ (.inr (by omega))).trans ?_
    · have hmod := Nat.mul_le_mul_left (2 ^ (7 * group)) (Nat.mod_lt high (by decide : 128 > 0))
      rw [Nat.mul_succ] at hmod
      rw [hjoin, hpow]
      omega
    · rw [hjoin]
      omega
    · rw [hjoin, Nat.add_assoc, hsplit]

theorem readVarint_writeVarint (value : UInt64) (rest : Bytes) :
    readVarint (writeVarint [] value ++ rest) = .ok (value, rest) := by
  have h := readVarintFrom_encode value.toNat rest (show 0 ≤ 10 by decide)
    (show (0 : UInt64).toNat < 2 ^ (7 * 0) by decide) (by simpa using value.toNat_lt) (.inl rfl)
  rw [writeVarint_eq, List.nil_append, readVarint]
  simpa using h

/-- A length whose bytes are cut off is not read. -/
theorem readVarintFrom_cut {shifts : List Nat} {part : Bytes} (acc : UInt64)
    (hmarked : ∀ byte ∈ part, 128 ≤ byte.toNat) (hshort : part.length < shifts.length)
    (htenth : ∀ shift ∈ shifts.take part.length, shift ≠ 63) :
    readVarintFrom shifts acc part = .error (.io .unexpectedEof) := by
  induction part generalizing shifts acc with
  | nil =>
    cases shifts with
    | nil => exact absurd hshort (Nat.lt_irrefl _)
    | cons shift shifts => rfl
  | cons byte part ih =>
    cases shifts with
    | nil => exact absurd hshort (Nat.not_lt_zero _)
    | cons shift shifts =>
      have hshift : shift ≠ 63 := htenth shift (by simp)
      have hbyte : ¬ byte &&& 0x80 = 0 :=
        mt (Varint.mark_eq_zero_iff byte).mp (Nat.not_lt.mpr (hmarked byte List.mem_cons_self))
      rw [readVarintFrom, if_neg fun h => hshift h.1, if_neg hbyte]
      apply ih
      · exact fun byte hin => hmarked byte (List.mem_cons_of_mem _ hin)
      · exact Nat.lt_of_succ_lt_succ hshort
      · exact fun shift hin => htenth shift (by
          rw [List.length_cons, List.take_succ_cons]
          exact List.mem_cons_of_mem _ hin)

/-! ### Frames -/

section
variable {prost : Prost Payload} {envelope : Envelope Payload}

theorem Valid.validate (h : Valid prost envelope) : validateEnvelope envelope = .ok () := by
  have hpayload : envelope.payload.isNone = false := by
    rw [← Option.not_isSome, h.payload]
    rfl
  simp [validateEnvelope, h.version, hpayload]

theorem Valid.size_lt (h : Valid prost envelope) : (prost.encode envelope).length < 2 ^ 64 :=
  Nat.lt_of_le_of_lt h.size (by decide)

theorem Valid.toNat_size (h : Valid prost envelope) :
    (UInt64.ofNat (prost.encode envelope).length).toNat = (prost.encode envelope).length := by
  rw [UInt64.toNat_ofNat', Nat.mod_eq_of_lt h.size_lt]

theorem writeEnvelope_valid (h : Valid prost envelope) (writer : Bytes) :
    writeEnvelope prost writer envelope = .ok (writer ++ frame prost envelope) := by
  have hsize : ¬ maximumMessageSize < (prost.encode envelope).length := Nat.not_lt.mpr h.size
  have hlength : writeVarint writer (UInt64.ofNat (prost.encode envelope).length) =
      writer ++ Varint.encode (prost.encode envelope).length := by
    rw [writeVarint_eq, h.toNat_size]
  simp [writeEnvelope, h.validate, hsize, hlength, frame, bind, Except.bind, pure, Except.pure]

theorem Valid.readVarint_size (h : Valid prost envelope) (rest : Bytes) :
    readVarint (Varint.encode (prost.encode envelope).length ++ rest) =
      .ok (UInt64.ofNat (prost.encode envelope).length, rest) := by
  have hread := readVarint_writeVarint (UInt64.ofNat (prost.encode envelope).length) rest
  rwa [writeVarint_eq, h.toNat_size, List.nil_append] at hread

theorem readExact_append (payload rest : Bytes) :
    readExact payload.length (payload ++ rest) = .ok (payload, rest) := by
  have hlong : ¬ (payload ++ rest).length < payload.length := by simp
  rw [readExact, if_neg hlong, List.take_left' rfl, List.drop_left' rfl]

theorem readEnvelope_frame (h : Valid prost envelope)
    (hinverse : prost.decode (prost.encode envelope) = .ok envelope) (rest : Bytes) :
    readEnvelope prost (frame prost envelope ++ rest) = .ok (envelope, rest) := by
  have hsize : ¬ maximumMessageSize < (prost.encode envelope).length := Nat.not_lt.mpr h.size
  rw [frame, List.append_assoc, readEnvelope, h.readVarint_size]
  simp [bind, Except.bind, h.toNat_size, hsize, readExact_append, hinverse,
    Except.mapError, h.validate, pure, Except.pure]

/-- The bytes of a frame's length that are left after a cut ask for more. -/
theorem Valid.readVarint_cut (h : Valid prost envelope) {part : Bytes}
    (hpart : part <+: Varint.encode (prost.encode envelope).length)
    (hcut : part ≠ Varint.encode (prost.encode envelope).length) :
    readVarint part = .error (.io .unexpectedEof) := by
  have hfew : (Varint.encode (prost.encode envelope).length).length ≤ 3 :=
    Varint.encode_length_le (Nat.lt_of_le_of_lt h.size (by decide))
  have hshort : part.length ≤ 3 := hpart.length_le.trans hfew
  apply readVarintFrom_cut 0 (Varint.marked_of_cut hpart hcut)
  · rw [List.length_range']
    omega
  · intro shift hin
    have hthree : shift ∈ (List.range' 0 10 7).take 3 :=
      (List.take_prefix_take_left hshort).subset hin
    clear hin
    revert shift
    decide

theorem readExact_short {size : Nat} {reader : Bytes} (h : reader.length < size) :
    readExact size reader = .error (.io .unexpectedEof) :=
  if_pos h

theorem readEnvelope_cut (h : Valid prost envelope) {part : Bytes}
    (hpart : part <+: frame prost envelope) (hcut : part ≠ frame prost envelope) :
    readEnvelope prost part = .error (.io .unexpectedEof) := by
  by_cases hlength : Varint.encode (prost.encode envelope).length <+: part
  · obtain ⟨payload, rfl⟩ := hlength
    have hpayload : payload <+: prost.encode envelope := (List.prefix_append_right_inj _).mp hpart
    have hshort : payload.length < (prost.encode envelope).length :=
      lt_of_le_of_ne hpayload.length_le fun heq =>
        hcut (by rw [frame, hpayload.eq_of_length heq])
    have hsize : ¬ maximumMessageSize < (prost.encode envelope).length := Nat.not_lt.mpr h.size
    rw [readEnvelope, h.readVarint_size]
    simp [bind, Except.bind, h.toNat_size, hsize, readExact_short hshort]
  · have hinside : part <+: Varint.encode (prost.encode envelope).length :=
      (List.prefix_or_prefix_of_prefix hpart (List.prefix_append _ _)).resolve_right hlength
    have hne : part ≠ Varint.encode (prost.encode envelope).length := by
      rintro rfl
      exact hlength (List.prefix_refl _)
    rw [readEnvelope, h.readVarint_cut hinside hne]
    rfl

/-! ### Streams of frames -/

theorem writeEnvelopes_valid {envelopes : List (Envelope Payload)}
    (h : ∀ envelope ∈ envelopes, Valid prost envelope) (writer : Bytes) :
    writeEnvelopes prost writer envelopes =
      .ok (writer ++ envelopes.flatMap (frame prost)) := by
  induction envelopes generalizing writer with
  | nil => simp [writeEnvelopes]
  | cons envelope envelopes ih =>
    have hrest := ih (fun envelope hin => h envelope (List.mem_cons_of_mem _ hin))
      (writer ++ frame prost envelope)
    rw [writeEnvelopes, writeEnvelope_valid (h envelope List.mem_cons_self)]
    simpa [bind, Except.bind] using hrest

theorem readEnvelopes_frames {envelopes : List (Envelope Payload)}
    (h : ∀ envelope ∈ envelopes, Valid prost envelope)
    (hinverse : ∀ envelope ∈ envelopes, prost.decode (prost.encode envelope) = .ok envelope)
    (rest : Bytes) :
    readEnvelopes prost envelopes.length (envelopes.flatMap (frame prost) ++ rest) =
      .ok (envelopes, rest) := by
  induction envelopes with
  | nil => rfl
  | cons envelope envelopes ih =>
    have hrest := ih (fun envelope hin => h envelope (List.mem_cons_of_mem _ hin))
      fun envelope hin => hinverse envelope (List.mem_cons_of_mem _ hin)
    rw [List.length_cons, readEnvelopes, List.flatMap_cons, List.append_assoc,
      readEnvelope_frame (h envelope List.mem_cons_self) (hinverse envelope List.mem_cons_self)]
    simp [bind, Except.bind, hrest, pure, Except.pure]

end

/-- What was written is read back in order with the bytes after it, lengths too, and a stream that
ends inside a frame gives the envelopes before the frame and then an error. -/
theorem stream_round_trip (prost : Prost Payload) (envelopes : List (Envelope Payload))
    (hvalid : ∀ envelope ∈ envelopes, Valid prost envelope)
    (hinverse : ∀ envelope ∈ envelopes, prost.decode (prost.encode envelope) = .ok envelope) :
    (∃ frames, (∀ writer, writeEnvelopes prost writer envelopes = .ok (writer ++ frames)) ∧
      (∀ trailing, readEnvelopes prost envelopes.length (frames ++ trailing) =
        .ok (envelopes, trailing)) ∧
      (∀ before envelope after stream next part, envelopes = before ++ envelope :: after →
        writeEnvelopes prost [] before = .ok stream →
        writeEnvelopes prost [] (before ++ [envelope]) = .ok next →
        stream ++ part <+: next → stream ++ part ≠ next →
        readEnvelopes prost before.length (stream ++ part) = .ok (before, part) ∧
        readEnvelope prost part = .error (.io .unexpectedEof))) ∧
    ∀ value rest, readVarint (writeVarint [] value ++ rest) = .ok (value, rest) := by
  refine ⟨⟨envelopes.flatMap (frame prost), writeEnvelopes_valid hvalid,
    readEnvelopes_frames hvalid hinverse, ?_⟩, readVarint_writeVarint⟩
  rintro before envelope after stream next part rfl hstream hnext hpart hcut
  have hbefore : ∀ envelope ∈ before, Valid prost envelope := fun envelope hin =>
    hvalid envelope (List.mem_append_left _ hin)
  have hthrough : ∀ other ∈ before ++ [envelope], Valid prost other := fun other hin =>
    hvalid other (by rw [List.append_cons]; exact List.mem_append_left _ hin)
  rw [writeEnvelopes_valid hbefore, List.nil_append, Except.ok.injEq] at hstream
  rw [writeEnvelopes_valid hthrough, List.nil_append, Except.ok.injEq, List.flatMap_append,
    List.flatMap_singleton] at hnext
  subst hstream hnext
  have hframe : part <+: frame prost envelope := (List.prefix_append_right_inj _).mp hpart
  have hinside : part ≠ frame prost envelope := fun heq => hcut (by rw [heq])
  exact ⟨readEnvelopes_frames hbefore
    (fun envelope hin => hinverse envelope (List.mem_append_left _ hin)) part,
    readEnvelope_cut (hvalid envelope (by simp)) hframe hinside⟩

inductive ResetPayload where
  | resetSession
  deriving DecidableEq

def resetEnvelope : Envelope ResetPayload :=
  { protocolVersion := 1, requestId := 42, sessionId := "session", payload := some .resetSession }

/-- Fields 1, 2, 3 and 11 of the envelope. -/
def resetBytes : Bytes :=
  [0x08, 1, 0x10, 42, 0x1a, 7, 115, 101, 115, 115, 105, 111, 110, 0x5a, 0]

def resetProst : Prost ResetPayload where
  encode envelope := if envelope = resetEnvelope then resetBytes else []
  decode bytes := if bytes = resetBytes then .ok resetEnvelope else .error "invalid wire type"

theorem stream_round_trip_reset :
    ∃ frames, ∀ trailing, readEnvelopes resetProst 2 (frames ++ trailing) =
      .ok ([resetEnvelope, resetEnvelope], trailing) := by
  have hvalid : ∀ envelope ∈ [resetEnvelope, resetEnvelope], Valid resetProst envelope := by
    intro envelope hin
    obtain rfl : envelope = resetEnvelope := by simpa using hin
    exact ⟨rfl, rfl, by decide⟩
  obtain ⟨⟨frames, -, hread, -⟩, -⟩ := stream_round_trip resetProst [resetEnvelope, resetEnvelope]
    hvalid (by decide)
  exact ⟨frames, hread⟩

end BeanKey.Daemon
