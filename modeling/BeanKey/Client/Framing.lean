import BeanKey.Daemon.Frame

/-! The client's end of the stream: lengths of at most five bytes, as 32-bit numbers. -/
namespace BeanKey.Client
open Packing Daemon

def kMaximumMessageSize : Nat := 1024 * 1024

def encodeLengthFrom (encoded : Bytes) (value : UInt32) : Bytes :=
  let byte := (value &&& 0x7f).toUInt8
  let rest := value >>> 7
  if rest = 0 then encoded ++ [byte] else encodeLengthFrom (encoded ++ [byte ||| 0x80]) rest
termination_by value.toNat
decreasing_by
  rename_i hrest
  have hne : (value >>> 7).toNat ≠ 0 := fun h => hrest (UInt32.toNat_inj.mp h)
  rw [Varint.toNat_shift32] at hne ⊢
  omega

/-- A size is as wide as a pointer; its low 32 bits are encoded. -/
def encodeLength (size : UInt64) : Bytes := encodeLengthFrom [] size.toUInt32

inductive LengthError where
  | unexpectedEnd
  | overlong
  | tooLarge
  deriving DecidableEq

def readLengthFrom : List Nat → UInt32 → Bytes → Except LengthError (UInt32 × Bytes)
  | [], _, _ => .error .overlong
  | index :: indices, responseSize, stream =>
    match stream with
    | [] => .error .unexpectedEnd
    | byte :: stream =>
      if index = 4 ∧ byte &&& 0xf0 ≠ 0 then .error .overlong
      else
        let responseSize := responseSize ||| (byte &&& 0x7f).toUInt32 <<< UInt32.ofNat (index * 7)
        if byte &&& 0x80 = 0 then
          if responseSize.toNat > kMaximumMessageSize then .error .tooLarge
          else .ok (responseSize, stream)
        else readLengthFrom indices responseSize stream

def readLength (stream : Bytes) : Except LengthError (UInt32 × Bytes) :=
  readLengthFrom (List.range 5) 0 stream

def writeRequest (payload : Bytes) : Option Bytes :=
  if payload.length > kMaximumMessageSize then none
  else some (encodeLength (UInt64.ofNat payload.length) ++ payload)

def readResponse (stream : Bytes) : Except LengthError (Bytes × Bytes) := do
  let (responseSize, stream) ← readLength stream
  if stream.length < responseSize.toNat then throw .unexpectedEnd
  return (stream.take responseSize.toNat, stream.drop responseSize.toNat)

/-! ### Lengths -/

theorem encodeLengthFrom_eq (encoded : Bytes) (value : UInt32) :
    encodeLengthFrom encoded value = encoded ++ Varint.encode value.toNat := by
  induction encoded, value using encodeLengthFrom.induct with
  | case1 encoded value rest hlast =>
    have hsmall : value.toNat < 128 := by
      have hzero := congrArg UInt32.toNat hlast
      rw [Varint.toNat_shift32, UInt32.toNat_zero] at hzero
      omega
    have hbyte : (value &&& 0x7f).toUInt8 = UInt8.ofNat value.toNat := by
      apply UInt8.toNat_inj.mp
      rw [Varint.toNat_low32, UInt8.toNat_ofNat']
      omega
    rw [encodeLengthFrom, if_pos hlast, Varint.encode_last hsmall, hbyte]
  | case2 encoded value byte rest hmore ih =>
    have hlarge : 128 ≤ value.toNat := by
      have hne : (value >>> 7).toNat ≠ 0 := fun h => hmore (UInt32.toNat_inj.mp h)
      rw [Varint.toNat_shift32] at hne
      omega
    have hbyte : (value &&& 0x7f).toUInt8 ||| 0x80 = UInt8.ofNat (value.toNat % 128 + 128) := by
      apply UInt8.toNat_inj.mp
      rw [Varint.toNat_mark (by rw [Varint.toNat_low32]; omega), Varint.toNat_low32,
        UInt8.toNat_ofNat']
      omega
    rw [encodeLengthFrom, if_neg hmore, Varint.encode_marked hlarge, ← Varint.toNat_shift32,
      ← hbyte]
    exact ih.trans (List.append_assoc _ _ _)

theorem encodeLength_length_le (size : UInt64) : (encodeLength size).length ≤ 5 := by
  rw [encodeLength, encodeLengthFrom_eq, List.nil_append]
  exact Varint.encode_length_le (Nat.lt_trans size.toUInt32.toNat_lt (by decide))

theorem toNat_size {size : UInt64} (hsize : size.toNat ≤ kMaximumMessageSize) :
    size.toUInt32.toNat = size.toNat := by
  rw [UInt64.toNat_toUInt32, Nat.mod_eq_of_lt (Nat.lt_of_le_of_lt hsize (by decide))]

theorem encodeLength_eq_writeVarint {size : UInt64} (hsize : size.toNat ≤ kMaximumMessageSize) :
    encodeLength size = writeVarint [] size := by
  rw [encodeLength, encodeLengthFrom_eq, writeVarint_eq, toNat_size hsize]

/-- A size within the limit has three groups, so the fifth byte is never looked at. -/
theorem group_le_two {low high group : Nat}
    (hfits : low + 2 ^ (7 * group) * high ≤ kMaximumMessageSize) (hpos : group = 0 ∨ 0 < high) :
    group ≤ 2 := by
  by_contra hlarge
  have hpow : 2 ^ (7 * 3) ≤ 2 ^ (7 * group) := Nat.pow_le_pow_right (by decide) (by omega)
  have hhigh : 2 ^ (7 * group) * 1 ≤ 2 ^ (7 * group) * high := Nat.mul_le_mul_left _ (by omega)
  unfold kMaximumMessageSize at hfits
  omega

/-- The bytes of the groups that are left are read on top of the groups read so far. -/
theorem readLengthFrom_encode (high : Nat) (rest : Bytes) {group : Nat} {acc : UInt32}
    (hacc : acc.toNat < 2 ^ (7 * group))
    (hfits : acc.toNat + 2 ^ (7 * group) * high ≤ kMaximumMessageSize)
    (hpos : group = 0 ∨ 0 < high) :
    readLengthFrom (List.range' group (5 - group)) acc (Varint.encode high ++ rest) =
      .ok (UInt32.ofNat (acc.toNat + 2 ^ (7 * group) * high), rest) := by
  induction high using Varint.encode.induct generalizing group acc with
  | case1 high hlast =>
    have htwo := group_le_two hfits hpos
    have hleft : 5 - group = 5 - (group + 1) + 1 := by omega
    have hsmall : acc.toNat + 2 ^ (7 * group) * high < 2 ^ 32 :=
      Nat.lt_of_le_of_lt hfits (by decide)
    have hbyte : (UInt8.ofNat high).toNat = high := by
      rw [UInt8.toNat_ofNat']
      omega
    have hallowed : ¬ (group = 4 ∧ UInt8.ofNat high &&& 0xf0 ≠ 0) := fun h => by omega
    have hlow : (UInt8.ofNat high &&& 0x7f).toUInt32.toNat = high := by
      rw [UInt8.toNat_toUInt32, Varint.toNat_unmark, hbyte, Nat.mod_eq_of_lt hlast]
    have hjoin := Varint.toNat_join32 rfl hacc hlow (by omega) (by omega)
    rw [hleft, List.range'_succ, Varint.encode_last hlast, List.singleton_append, readLengthFrom,
      if_neg hallowed, Nat.mul_comm group 7]
    simp only [(Varint.mark_eq_zero_iff (UInt8.ofNat high)).mpr (by rwa [hbyte]), if_true, hjoin,
      gt_iff_lt, Nat.not_lt.mpr hfits, if_false]
    rw [← hjoin, UInt32.ofNat_toNat]
  | case2 high hmarked ih =>
    have htwo := group_le_two hfits hpos
    have hleft : 5 - group = 5 - (group + 1) + 1 := by omega
    have hsmall : acc.toNat + 2 ^ (7 * group) * high < 2 ^ 32 :=
      Nat.lt_of_le_of_lt hfits (by decide)
    have hpow : 2 ^ (7 * (group + 1)) = 2 ^ (7 * group) * 128 := by
      rw [Nat.mul_succ, Nat.pow_add]
    have hsplit : 2 ^ (7 * group) * (high % 128) + 2 ^ (7 * (group + 1)) * (high / 128) =
        2 ^ (7 * group) * high := by
      rw [hpow, Nat.mul_assoc, ← Nat.mul_add, Nat.mod_add_div]
    have hbyte : (UInt8.ofNat (high % 128 + 128)).toNat = high % 128 + 128 := by
      rw [UInt8.toNat_ofNat']
      omega
    have hallowed : ¬ (group = 4 ∧ UInt8.ofNat (high % 128 + 128) &&& 0xf0 ≠ 0) :=
      fun h => by omega
    have hlow : (UInt8.ofNat (high % 128 + 128) &&& 0x7f).toUInt32.toNat = high % 128 := by
      rw [UInt8.toNat_toUInt32, Varint.toNat_unmark, hbyte]
      omega
    have hjoin := Varint.toNat_join32 rfl hacc hlow (by omega) (by omega)
    rw [hleft, List.range'_succ, Varint.encode_marked (Nat.not_lt.mp hmarked), List.cons_append,
      readLengthFrom, if_neg hallowed, Nat.mul_comm group 7]
    simp only [mt (Varint.mark_eq_zero_iff _).mp
      (show ¬ (UInt8.ofNat (high % 128 + 128)).toNat < 128 by rw [hbyte]; omega), if_false]
    refine (ih ?_ ?_ (.inr (by omega))).trans ?_
    · have hmod := Nat.mul_le_mul_left (2 ^ (7 * group)) (Nat.mod_lt high (by decide : 128 > 0))
      rw [Nat.mul_succ] at hmod
      rw [hjoin, hpow]
      omega
    · rw [hjoin]
      omega
    · rw [hjoin, Nat.add_assoc, hsplit]

theorem readLength_encode {size : Nat} (hsize : size ≤ kMaximumMessageSize) (rest : Bytes) :
    readLength (Varint.encode size ++ rest) = .ok (UInt32.ofNat size, rest) := by
  have h := readLengthFrom_encode size rest (show (0 : UInt32).toNat < 2 ^ (7 * 0) by decide)
    (by simpa using hsize) (.inl rfl)
  simpa [readLength, List.range_eq_range'] using h

/-- More bytes do not change why a length is refused. -/
theorem readLengthFrom_refused {indices : List Nat} {responseSize : UInt32} {stream : Bytes}
    {error : LengthError} (h : readLengthFrom indices responseSize stream = .error error)
    (hrefused : error ≠ .unexpectedEnd) (more : Bytes) :
    readLengthFrom indices responseSize (stream ++ more) = .error error := by
  induction indices generalizing responseSize stream with
  | nil => exact h
  | cons index indices ih =>
    cases stream with
    | nil =>
      rw [readLengthFrom, Except.error.injEq] at h
      exact absurd h.symm hrefused
    | cons byte stream =>
      rw [List.cons_append, readLengthFrom]
      rw [readLengthFrom] at h
      by_cases hfifth : index = 4 ∧ byte &&& 0xf0 ≠ 0
      · rwa [if_pos hfifth] at h ⊢
      · rw [if_neg hfifth] at h ⊢
        by_cases hlast : byte &&& 0x80 = 0
        · simp only [hlast, if_true] at h ⊢
          split at h
          · next hlarge => rwa [if_pos hlarge]
          · cases h
        · simp only [hlast, if_false] at h ⊢
          exact ih h

/-! ### Frames -/

theorem toNat_length {payload : Bytes} (hsize : payload.length ≤ kMaximumMessageSize) :
    (UInt64.ofNat payload.length).toNat = payload.length := by
  rw [UInt64.toNat_ofNat', Nat.mod_eq_of_lt (Nat.lt_of_le_of_lt hsize (by decide))]

theorem valid_of_writeEnvelope {Payload : Type} {prost : Prost Payload}
    {envelope : Envelope Payload} {writer bytes : Bytes}
    (h : writeEnvelope prost writer envelope = .ok bytes) : Valid prost envelope := by
  by_cases hversion : envelope.protocolVersion = protocolVersion
  · cases hpayload : envelope.payload with
    | none =>
      simp [writeEnvelope, validateEnvelope, hversion, hpayload, bind, Except.bind] at h
    | some payload =>
      by_cases hsize : (prost.encode envelope).length ≤ maximumMessageSize
      · exact ⟨hversion, by rw [hpayload]; rfl, hsize⟩
      · have hlarge : maximumMessageSize < (prost.encode envelope).length := Nat.not_le.mp hsize
        simp [writeEnvelope, validateEnvelope, hversion, hpayload, hlarge, bind, Except.bind,
          throw, throwThe, MonadExceptOf.throw] at h
  · simp [writeEnvelope, validateEnvelope, hversion, bind, Except.bind] at h

theorem readResponse_frame {payload : Bytes} (hsize : payload.length ≤ kMaximumMessageSize)
    (rest : Bytes) :
    readResponse (Varint.encode payload.length ++ payload ++ rest) = .ok (payload, rest) := by
  have hcount : (UInt32.ofNat payload.length).toNat = payload.length := by
    rw [UInt32.toNat_ofNat', Nat.mod_eq_of_lt (Nat.lt_of_le_of_lt hsize (by decide))]
  rw [List.append_assoc, readResponse, readLength_encode hsize]
  simp [bind, Except.bind, hcount, pure, Except.pure]

/-- The two ends agree on every size within the limit, in both directions, and no prefix that the
client refuses begins what the daemon writes. The client's own prefixes fit its array. -/
theorem framings_agree :
    kMaximumMessageSize = maximumMessageSize ∧
    (∀ size : UInt64, (encodeLength size).length ≤ 5) ∧
    (∀ (size : UInt64) (rest : Bytes), size.toNat ≤ kMaximumMessageSize →
      readVarint (encodeLength size ++ rest) = .ok (size, rest)) ∧
    (∀ (size : UInt64) (rest : Bytes), size.toNat ≤ maximumMessageSize →
      readLength (writeVarint [] size ++ rest) = .ok (size.toUInt32, rest) ∧
      size.toUInt32.toNat = size.toNat) ∧
    (∀ (stream : Bytes) (error : LengthError), readLength stream = .error error →
      error = .overlong ∨ error = .tooLarge →
      ∀ (size : UInt64) (rest : Bytes), size.toNat ≤ maximumMessageSize →
        ¬ stream <+: writeVarint [] size ++ rest) ∧
    (∀ (payload request : Bytes), writeRequest payload = some request →
      ∀ rest, ∃ size, readVarint (request ++ rest) = .ok (size, payload ++ rest) ∧
        size.toNat ≤ maximumMessageSize ∧
        readExact size.toNat (payload ++ rest) = .ok (payload, rest)) ∧
    ∀ (Payload : Type) (prost : Prost Payload) (envelope : Envelope Payload) (frame : Bytes),
      writeEnvelope prost [] envelope = .ok frame →
      ∀ rest, readResponse (frame ++ rest) = .ok (prost.encode envelope, rest) := by
  have hclient : ∀ (size : UInt64) (rest : Bytes), size.toNat ≤ kMaximumMessageSize →
      readVarint (encodeLength size ++ rest) = .ok (size, rest) := by
    intro size rest hsize
    rw [encodeLength_eq_writeVarint hsize]
    exact readVarint_writeVarint size rest
  have hdaemon : ∀ (size : UInt64) (rest : Bytes), size.toNat ≤ maximumMessageSize →
      readLength (writeVarint [] size ++ rest) = .ok (size.toUInt32, rest) := by
    intro size rest hsize
    rw [writeVarint_eq, List.nil_append, readLength_encode hsize]
    rfl
  refine ⟨rfl, encodeLength_length_le, hclient, fun size rest hsize =>
    ⟨hdaemon size rest hsize, toNat_size hsize⟩, ?_, ?_, ?_⟩
  · rintro stream error hstream herror size rest hsize ⟨more, hmore⟩
    have hrefused : error ≠ .unexpectedEnd := by
      rintro rfl
      obtain h | h := herror <;> cases h
    have hread := readLengthFrom_refused hstream hrefused more
    rw [hmore] at hread
    rw [← readLength, hdaemon size rest hsize] at hread
    cases hread
  · intro payload request hrequest rest
    unfold writeRequest at hrequest
    split at hrequest
    · cases hrequest
    · next hlarge =>
      have hsize : payload.length ≤ kMaximumMessageSize := Nat.not_lt.mp hlarge
      have hcount := toNat_length hsize
      rw [Option.some.injEq] at hrequest
      subst hrequest
      refine ⟨UInt64.ofNat payload.length, ?_, by rwa [hcount], ?_⟩
      · rw [List.append_assoc]
        exact hclient _ _ (by rwa [hcount])
      · rw [hcount]
        exact readExact_append payload rest
  · intro Payload prost envelope bytes hwritten rest
    have hvalid := valid_of_writeEnvelope hwritten
    rw [writeEnvelope_valid hvalid, List.nil_append, Except.ok.injEq] at hwritten
    rw [← hwritten, frame]
    exact readResponse_frame hvalid.size rest

end BeanKey.Client
