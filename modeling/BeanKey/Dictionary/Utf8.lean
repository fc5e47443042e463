import BeanKey.Dictionary.Binary

/-! Texts survive the trip through their bytes. -/
namespace BeanKey.Dictionary
open Packing

theorem toNat_continuation (value : Nat) :
    (UInt8.ofNat (value % 64 + 128)).toNat = value % 64 + 128 :=
  UInt8.toNat_ofNat_of_lt' (by rw [UInt8.size]; omega)

theorem decodeFurther_cons (count bits value : Nat) (rest : Bytes) :
    decodeFurther (count + 1) bits (UInt8.ofNat (value % 64 + 128) :: rest) =
      decodeFurther count (64 * bits + value % 64) rest := by
  have hbyte := toNat_continuation value
  rw [decodeFurther, if_pos (by omega), hbyte, Nat.add_sub_cancel]

theorem decodeFirst_sequence {lead : UInt8} {low high further value : Nat} {rest : Bytes}
    (hlead : 128 ≤ lead.toNat) (hrule : continuationRule lead.toNat = some (low, high, further))
    (hlow : low ≤ value % 64 + 128) (hhigh : value % 64 + 128 ≤ high) :
    decodeFirst lead (UInt8.ofNat (value % 64 + 128) :: rest) =
      decodeFurther further
        (64 * (lead.toNat % (if further = 0 then 32 else if further = 1 then 16 else 8)) +
          value % 64)
        rest := by
  have hbyte := toNat_continuation value
  rw [decodeFirst.eq_def, if_neg (show ¬lead.toNat < 0x80 by omega), hrule]
  simp only
  rw [hbyte, if_pos ⟨hlow, hhigh⟩, Nat.add_sub_cancel]

theorem decodeFirst_encode (character : Char) : ∃ lead tail,
    String.utf8EncodeChar character = lead :: tail ∧
      ∀ rest, decodeFirst lead (tail ++ rest) = (character, rest) := by
  have hself : Char.ofNat character.toNat = character := Char.ofNat_toNat character
  have hvalid : character.toNat < 0xd800 ∨ 0xdfff < character.toNat ∧ character.toNat < 0x110000 :=
    character.valid
  have hval : character.val.toNat = character.toNat := rfl
  rw [String.utf8EncodeChar]
  simp only [hval]
  generalize character.toNat = value at hself hvalid
  subst hself
  split
  · refine ⟨_, _, rfl, fun rest => ?_⟩
    have hlead : (UInt8.ofNat value).toNat = value :=
      UInt8.toNat_ofNat_of_lt' (by rw [UInt8.size]; omega)
    rw [decodeFirst.eq_def, if_pos (by omega), hlead]
    rfl
  · split
    · refine ⟨_, _, rfl, fun rest => ?_⟩
      have hlead : (UInt8.ofNat (value / 64 % 32 + 192)).toNat = value / 64 % 32 + 192 :=
        UInt8.toNat_ofNat_of_lt' (by rw [UInt8.size]; omega)
      have hrule : continuationRule (value / 64 % 32 + 192) = some (0x80, 0xbf, 0) := by
        rw [continuationRule, if_pos (by omega)]
      rw [List.cons_append, decodeFirst_sequence (by omega) (hlead ▸ hrule) (by omega) (by omega),
        hlead]
      simp only [decodeFurther, List.nil_append]
      rw [if_pos trivial]
      congr 2
      omega
    · split
      · refine ⟨_, _, rfl, fun rest => ?_⟩
        have hlead : (UInt8.ofNat (value / 4096 % 16 + 224)).toNat = value / 4096 % 16 + 224 :=
          UInt8.toNat_ofNat_of_lt' (by rw [UInt8.size]; omega)
        have hrule : ∃ low high, continuationRule (value / 4096 % 16 + 224) = some (low, high, 1) ∧
            low ≤ value / 64 % 64 + 128 ∧ value / 64 % 64 + 128 ≤ high := by
          rw [continuationRule, if_neg (by omega)]
          split_ifs
          · exact ⟨_, _, rfl, by omega, by omega⟩
          · exact ⟨_, _, rfl, by omega, by omega⟩
          · exact ⟨_, _, rfl, by omega, by omega⟩
          all_goals omega
        obtain ⟨low, high, hrule, hlow, hhigh⟩ := hrule
        rw [List.cons_append, decodeFirst_sequence (by omega) (hlead ▸ hrule) hlow hhigh, hlead,
          List.cons_append, decodeFurther_cons]
        simp only [decodeFurther, List.nil_append]
        rw [if_neg (by decide), if_pos trivial]
        congr 2
        omega
      · refine ⟨_, _, rfl, fun rest => ?_⟩
        have hlead : (UInt8.ofNat (value / 262144 % 8 + 240)).toNat = value / 262144 % 8 + 240 :=
          UInt8.toNat_ofNat_of_lt' (by rw [UInt8.size]; omega)
        have hrule : ∃ low high, continuationRule (value / 262144 % 8 + 240) = some (low, high, 2) ∧
            low ≤ value / 4096 % 64 + 128 ∧ value / 4096 % 64 + 128 ≤ high := by
          rw [continuationRule, if_neg (by omega)]
          split_ifs
          all_goals first | exact ⟨_, _, rfl, by omega, by omega⟩ | omega
        obtain ⟨low, high, hrule, hlow, hhigh⟩ := hrule
        rw [List.cons_append, decodeFirst_sequence (by omega) (hlead ▸ hrule) hlow hhigh, hlead,
          List.cons_append, decodeFurther_cons, List.cons_append, decodeFurther_cons]
        simp only [decodeFurther, List.nil_append]
        rw [if_neg (by decide), if_neg (by decide)]
        congr 2
        omega

theorem decodeLossy_utf8 (value : Text) {fuel : Nat} (h : (utf8 value).length ≤ fuel) :
    decodeLossy fuel (utf8 value) = value := by
  induction value generalizing fuel with
  | nil => cases fuel <;> rfl
  | cons character rest ih =>
    obtain ⟨lead, tail, hencode, hdecode⟩ := decodeFirst_encode character
    have hbytes : utf8 (character :: rest) = lead :: (tail ++ utf8 rest) := by
      rw [utf8_cons, hencode]
      rfl
    rw [hbytes, List.length_cons, List.length_append] at h
    cases fuel with
    | zero => omega
    | succ fuel =>
      rw [hbytes, decodeLossy, hdecode]
      have hrest := ih (show (utf8 rest).length ≤ fuel by omega)
      simp only [hrest]

@[simp] theorem fromUtf8Lossy_utf8 (value : Text) : fromUtf8Lossy (utf8 value) = value :=
  decodeLossy_utf8 value (Nat.le_refl _)

theorem prefix_of_utf8 {value other : Text} (h : utf8 value <+: utf8 other) : value <+: other := by
  induction value generalizing other with
  | nil => exact List.nil_prefix
  | cons character rest ih =>
    obtain ⟨lead, tail, hencode, hdecode⟩ := decodeFirst_encode character
    obtain ⟨after, hafter⟩ := h
    rw [utf8_cons, hencode, List.cons_append, List.cons_append, List.append_assoc] at hafter
    cases other with
    | nil => cases hafter
    | cons next other =>
      obtain ⟨lead', tail', hencode', hdecode'⟩ := decodeFirst_encode next
      rw [utf8_cons, hencode', List.cons_append] at hafter
      obtain ⟨rfl, htails⟩ := List.cons.inj hafter
      have hfirst := hdecode (utf8 rest ++ after)
      rw [htails, hdecode'] at hfirst
      obtain ⟨rfl, hrest⟩ := Prod.mk.inj hfirst
      rw [List.prefix_cons_inj]
      exact ih ⟨after, hrest.symm⟩

/-- Only the first byte of a character leads. -/
theorem tail_utf8EncodeChar {character : Char} {byte : UInt8}
    (h : byte ∈ (String.utf8EncodeChar character).tail) : byte.toNat < 192 := by
  have hbyte : ∃ value, byte = UInt8.ofNat (value % 64 + 128) := by
    rw [String.utf8EncodeChar] at h
    split_ifs at h
    all_goals simp only [List.tail_cons, List.mem_cons, List.not_mem_nil, or_false] at h
    · exact ⟨_, h⟩
    · rcases h with h | h
      · exact ⟨_, h⟩
      · exact ⟨_, h⟩
    · rcases h with h | h | h
      · exact ⟨_, h⟩
      · exact ⟨_, h⟩
      · exact ⟨_, h⟩
  obtain ⟨value, rfl⟩ := hbyte
  rw [toNat_continuation]
  omega

end BeanKey.Dictionary
